import Insomnilog.Backend.Events

/-! The steps of the worker keep the invariant of the backend. -/
namespace Insomnilog.Backend
open ByteStore Wire Queue Framing Frontend

variable {t : Target} {cfg : Config t} {k i budget : ℕ} {s s' : State t} {th th' : Thread t}
  {w : Worker t} {down : Bool} {kept rest sinks : List ℕ} {f : Fanout t}
  {avail : BitVec t.bits}

namespace BackendInv

theorem top (h : BackendInv cfg k s) (hs : s.worker = .top) :
    BackendInv cfg k { s with
      worker :=
        if s.shutdownFlag && !cfg.waitForDrain then .done else .snapshot s.shutdownFlag } := by
  split
  next hstop =>
    refine h.moves (fun i => by rw [hs]; rfl) fun hwait => ?_
    simp [hwait] at hstop
  next =>
    refine h.moves (fun i => by rw [hs]; rfl) fun hdown => ?_
    exact Option.isSome_iff_exists.mp (h.flag ▸ hdown)

theorem poll (h : BackendInv cfg k s) (hs : s.worker = .poll down i (budget + 1) rest)
    (hi : s.threads[i]? = some th) (ha : th.available = (avail, th')) :
    BackendInv cfg k { s.setThread i th' with
      worker :=
        if avail.toNat < RecordHeader.SIZE t then .visit down rest
        else .peek down i budget avail rest } := by
  have hok := h.worker
  rw [hs] at hok
  obtain ⟨hdown, hrange⟩ := hok
  obtain ⟨hinv, hk, hreg, hrej, hcases⟩ := (h.threads i th hi).inv.available ha
  split
  next hshort =>
    exact h.touches hi hinv hk hreg hrej (fun j => by rw [hs]; rfl) fun hl =>
      ⟨hl.down hdown, hl.inRange fun j hj => hrange j (List.mem_cons_of_mem _ hj)⟩
  next hlong =>
    refine h.touches hi hinv hk hreg hrej (fun j => by rw [hs]; rfl) fun hl =>
      ⟨hl.down hdown, hl.inRange hrange, th', ?_, ?_⟩
    · exact State.getElem?_setThread hi _
    · rcases hcases with ⟨-, hzero⟩ | hp
      · have := SIZE_pos t
        omega
      · exact hp

/-- `peek` passes its assertion, and the early return is not taken. -/
theorem peekHeader (h : BackendInv cfg k s) (hs : s.worker = .peek down i budget avail rest)
    (hi : s.threads[i]? = some th) :
    BackendInv cfg k (s.peekHeader down i budget avail rest th) := by
  have hok := h.worker
  rw [hs] at hok
  obtain ⟨hdown, hrange, hat⟩ := hok
  obtain ⟨r, off, hp, ha⟩ := hat.get hi
  obtain ⟨c, hpeek, hinv, hk⟩ := (h.threads i th hi).inv.peek hp
  simp only [State.peekHeader, hpeek, r.announces]
  rw [if_neg (by omega)]
  refine h.touches hi hinv hk rfl rfl (fun j => by rw [hs]; rfl) fun hl =>
    ⟨hl.down hdown, hl.inRange hrange, _, ?_, r, off, hk.placed hp, rfl⟩
  exact State.getElem?_setThread hi _

/-- `read` passes its assertion, and its closure decodes the oldest unread record. -/
theorem readRecord (h : BackendInv cfg k s) {totalLen : ℕ}
    (hs : s.worker = .read down i budget totalLen rest) (hi : s.threads[i]? = some th) :
    BackendInv cfg k (s.readRecord cfg down i budget totalLen rest th) := by
  have hok := h.worker
  rw [hs] at hok
  obtain ⟨hdown, hrange, hat⟩ := hok
  obtain ⟨r, off, hp, rfl⟩ := hat.get hi
  obtain ⟨e, he, rfl⟩ := Thread.entry_of_placed hp
  obtain ⟨av, c, hac, hle, hbytes, hinv, hk, hahead⟩ := (h.threads i th hi).inv.acquire hp
  have hset := State.getElem?_setThread hi (th.withConsumer c)
  have hpass : (t.checks && decide (av.toNat < e.record.size)) = false := by
    rw [decide_eq_false (Nat.not_lt.mpr hle), Bool.and_false]
  have hdecode := e.record.decodeRecord (cfg.decoders i th.results.length)
  simp only [State.readRecord, hac, hpass, Bool.false_eq_true, ↓reduceIte, hbytes, hdecode]
  cases hd : e.record.decoded (cfg.decoders i th.results.length) with
  | panic =>
    exact h.touches hi hinv hk rfl rfl (fun j => by rw [hs]; rfl) fun _ =>
      ⟨i, _, hset, e, he, hd⟩
  | _ =>
    exact h.touches hi hinv hk rfl rfl (fun j => by rw [hs]; rfl) fun hl =>
      ⟨hl.down hdown, hl.inRange hrange, _, hset, e, off, he, hp, rfl, hahead, hd.symm, by simp⟩

/-- A record is taken, and counted with the others that decoded. -/
theorem takes (h : BackendInv cfg k s) (hi : s.threads[i]? = some th)
    (htoCome : ∀ j, s.worker.toCome cfg j = []) {totalLen : ℕ}
    {d : Decoded (RawDecodedRecord t)} (new : List (ℕ × ℕ)) (w : Worker t)
    (hinv : ThreadInv cfg k i (th.advance totalLen d))
    (hfanned : overDecoded (fun j _ => [(i, j)]) (th.results ++ [d]) =
      overDecoded (fun j _ => [(i, j)]) th.results ++ new)
    (hnew : ∀ p ∈ new, p.1 = i)
    (hcalls : overDecoded (cfg.callsFor i) (th.results ++ [d]) =
      overDecoded (cfg.callsFor i) th.results ++ w.toCome cfg i)
    (hother : ∀ j, j ≠ i → w.toCome cfg j = [])
    (hw : ∀ s' : State t, s'.mark = s.mark → s'.threads.length = s.threads.length →
      s'.threads[i]? = some (th.advance totalLen d) → WorkerOk cfg s' w) :
    BackendInv cfg k { s.setThread i (th.advance totalLen d) with
      fanned := s.fanned ++ new
      worker := w } := by
  have hlt := (List.getElem?_eq_some_iff.mp hi).choose
  have hset : (s.threads.set i (th.advance totalLen d))[i]? =
      some (th.advance totalLen d) := List.getElem?_set_self hlt
  have hlength (u : Thread t) : (s.threads.set i u).length = s.threads.length := List.length_set
  refine
    { rounded := h.rounded
      threads := fun j u hj => ?_
      consumers := fun j hj => (h.consumers j hj).trans_eq (hlength _).symm
      worker := hw _ rfl (hlength _) hset
      flag := h.flag
      mark := fun m j n hm hn => ?_
      fanned := fun p hp => ?_
      calls := fun c hc => (h.calls c hc).trans_eq (hlength _).symm
      writeErrors := h.writeErrors
      flushErrors := h.flushErrors
      panicCount := h.panicCount
      dropped := h.dropped_set hi (n := 0) rfl }
  · by_cases hji : j = i
    · subst hji
      obtain rfl := Option.some.inj (hset.symm.trans hj)
      have hf := h.threads j th hi
      refine ⟨hinv, ?_, ?_, fun hr => .inl ?_⟩
      · rw [List.filter_append, hf.fanned, Thread.advance_results, hfanned,
          List.filter_eq_self.mpr fun p hp => by simpa using hnew p hp]
      · have hc := hf.calls
        rw [htoCome, List.append_nil] at hc
        rw [Thread.advance_results, hcalls, ← hc]
        rfl
      · refine (hf.registered hr).resolve_right fun hfin => ?_
        have hle := hinv.taken_le
        have hall : th.results.length = th.committed.length := hfin.2
        rw [Thread.advance_results, List.length_append, hall] at hle
        exact absurd hle (by simp [Thread.advance])
    · have hj' : s.threads[j]? = some u := (List.getElem?_set_ne (Ne.symm hji)).symm.trans hj
      have hf := h.threads j u hj'
      refine ⟨hf.inv, ?_, ?_, hf.registered⟩
      · rw [List.filter_append, hf.fanned, List.filter_eq_nil_iff.mpr fun p hp => ?_,
          List.append_nil]
        simpa [hnew p hp] using Ne.symm hji
      · have hc := hf.calls
        rw [htoCome] at hc
        rw [← hc]
        exact congrArg _ (hother j hji)
  · obtain ⟨u, hu, hle⟩ := h.mark m j n hm hn
    have hsame : (th.advance totalLen d).committed = th.committed := rfl
    obtain ⟨u', hu', hcommitted⟩ := set_related (R := fun _ u u' => u'.committed = u.committed) hi
      hsame (fun _ _ _ => rfl) hu
    exact ⟨u', hu', hle.trans_eq (congrArg List.length hcommitted).symm⟩
  · rw [show (s.setThread i _).threads.length = _ from hlength _]
    rcases List.mem_append.mp hp with hp | hp
    · exact h.fanned p hp
    · rw [hnew p hp]
      exact hlt

/-- The read position moves on, and the record is handed over if it decoded. -/
theorem finishRead (h : BackendInv cfg k s) {totalLen : ℕ} {d : Decoded (RawDecodedRecord t)}
    (hs : s.worker = .advance down i budget totalLen d rest) (hi : s.threads[i]? = some th) :
    BackendInv cfg k (s.finishRead cfg down i budget totalLen d rest th) := by
  have hok := h.worker
  rw [hs] at hok
  obtain ⟨hdown, hrange, hat⟩ := hok
  obtain ⟨e, off, he, hp, rfl, hahead, rfl, hne⟩ := hat.get hi
  have htoCome (j : ℕ) : s.worker.toCome cfg j = [] := by rw [hs]; rfl
  have hinv := (h.threads i th hi).inv.advance he hp hahead hne
  cases hd : e.record.decoded (cfg.decoders i th.results.length) with
  | ok raw =>
    rw [hd] at hinv
    refine h.takes hi htoCome [(i, th.results.length)] _ hinv (overDecoded_concat_ok _ _ raw)
      (by simp) ?_ ?_ ?_
    · rw [overDecoded_concat_ok]
      simp only [Worker.toCome, if_pos]
      rfl
    · intro j hji
      simp only [Worker.toCome]
      rw [if_neg (Ne.symm hji)]
    · intro s' hmark hlength hi'
      refine ⟨fun hd => hmark ▸ hdown hd, fun j hj => hlength ▸ hrange j hj, _, hi', ?_⟩
      exact ⟨th.results, raw, rfl, rfl, rfl, rfl⟩
  | err error =>
    rw [hd] at hinv
    have hv := h.takes hi htoCome [] (.visit down rest) hinv
      (by rw [overDecoded_concat_not_ok _ _ (by simp), List.append_nil]) (by simp)
      (by rw [overDecoded_concat_not_ok _ _ (by simp)]; exact (List.append_nil _).symm)
      (fun _ _ => rfl) fun s' hmark hlength _ => ⟨fun hd => hmark ▸ hdown hd,
        fun j hj => hlength ▸ hrange j (List.mem_cons_of_mem _ hj)⟩
    rw [List.append_nil] at hv
    exact hv
  | panic => exact absurd hd hne

/-- One round of the fan-out, whose calls were still to come. -/
theorem round (h : BackendInv cfg k s) {sink : ℕ} {v : Visit}
    (hs : s.worker = .fanout down budget rest f (sink :: sinks))
    (hv : v = visitSink (cfg.sink f.thread f.index f.position) (cfg.levelOf f.record.metadata))
    (htoCome : ∀ j, s.worker.toCome cfg j =
      (if f.thread = j then f.calls sink v else []) ++ w.toCome cfg j)
    (hw : WorkerOk cfg s w) (hlock : w.locksRegistry = false) :
    BackendInv cfg k { s with
      calls := s.calls ++ f.calls sink v
      writeErrors := s.writeErrors + v.writeErrors
      flushErrors := s.flushErrors + v.flushErrors
      panicCount := s.panicCount + v.panicked.toNat
      worker := w } := by
  have hok := h.worker
  rw [hs] at hok
  obtain ⟨hwrite, hflush, hpanic⟩ :=
    visitSink_counts (cfg.sink f.thread f.index f.position) (cfg.levelOf f.record.metadata)
  rw [← hv] at hwrite hflush hpanic
  refine
    { rounded := h.rounded
      threads := fun j th hj => ?_
      consumers := h.consumers
      worker := hw.mono ⟨fun j th hj => ⟨th, hj, .refl th⟩, fun m hm => hm⟩ (by simp [hlock])
      flag := h.flag
      mark := h.mark
      fanned := h.fanned
      calls := fun c hc => ?_
      writeErrors := ?_
      flushErrors := ?_
      panicCount := ?_
      dropped := h.dropped }
  · have hf := h.threads j th hj
    refine ⟨hf.inv, hf.fanned, ?_, hf.registered⟩
    rw [← hf.calls, htoCome, List.filter_append, List.append_assoc]
    congr 2
    split
    next heq =>
      refine List.filter_eq_self.mpr fun c hc => ?_
      simpa [Fanout.thread_of_mem_calls hc] using heq
    next hne =>
      refine List.filter_eq_nil_iff.mpr fun c hc => ?_
      simpa [Fanout.thread_of_mem_calls hc] using hne
  · rcases List.mem_append.mp hc with hc | hc
    · exact h.calls c hc
    · rw [Fanout.thread_of_mem_calls hc]
      exact hok.2.1 f.thread List.mem_cons_self
  · rw [List.countP_append, ← h.writeErrors, Fanout.countP_calls, hwrite]
    rfl
  · rw [List.countP_append, ← h.flushErrors, Fanout.countP_calls, hflush]
    rfl
  · rw [List.countP_append, ← h.panicCount, Fanout.countP_calls, hpanic]
    rfl

theorem fanout (h : BackendInv cfg k s) (hs : s.worker = .fanout down budget rest f sinks) :
    BackendInv cfg k (s.fanoutStep cfg down budget rest f sinks) := by
  have hok := h.worker
  rw [hs] at hok
  obtain ⟨hdown, hrange, hat⟩ := hok
  cases sinks with
  | nil =>
    refine h.moves (fun j => ?_) ⟨hdown, hrange⟩
    rw [hs]
    simp [Worker.toCome, Fanout.remaining]
  | cons sink sinks =>
    refine h.round hs rfl (fun j => ?_) ?_ ?_
    · rw [hs]
      simp only [Worker.toCome, Fanout.remaining]
      cases (visitSink (cfg.sink f.thread f.index f.position)
        (cfg.levelOf f.record.metadata)).panicked
      all_goals by_cases hj : f.thread = j <;> simp [hj, Fanout.next]
    · split
      · exact ⟨hdown, hrange⟩
      · refine ⟨hdown, hrange, ?_⟩
        obtain ⟨th, hi, pre, raw, hres, hindex, hrecord, hsinks⟩ := hat
        refine ⟨th, hi, pre, raw, hres, hindex, hrecord, ?_⟩
        rw [Fanout.next, ← List.tail_drop, ← hsinks]
        rfl
    · split <;> rfl

/-- The end of `retain`. What is not kept has nothing more to give. -/
theorem retired (h : BackendInv cfg k s) (hs : s.worker = .retire down kept []) :
    BackendInv cfg k { s with
      consumers := kept
      worker := if down then .beforePending else .top } := by
  have hok := h.worker
  rw [hs] at hok
  obtain ⟨hdown, hcovered⟩ := hok
  rw [List.append_nil] at hcovered
  refine h.carry h.carries_refl hcovered.2 hcovered.1 h.dropped ?_ fun hl => ?_
  · intro j
    rw [hs]
    split <;> rfl
  · split
    next hset => exact hl.down (hset ▸ hdown)
    next => trivial

/-- A record that was committed before the flag was stored is taken, unless the consumer of
its thread is registered. -/
theorem beforePending (h : BackendInv cfg k s) (hs : s.worker = .beforePending) :
    BackendInv cfg k { s with worker := .pending s.consumers } := by
  have hok := h.worker
  rw [hs] at hok
  obtain ⟨m, hm⟩ := hok rfl
  refine h.moves (fun j => by rw [hs]; rfl) ⟨h.consumers, m, hm, fun i n hn => ?_⟩
  obtain ⟨th, hi, hle⟩ := h.mark m i n hm hn
  have hf := h.threads i th hi
  by_cases hr : th.registered = true
  · rcases hf.registered hr with hmem | hfin
    · exact .inl hmem
    · exact .inr ⟨th, hi, hle.trans_eq hfin.2.symm⟩
  · obtain ⟨hnone, -⟩ := hf.inv.unregistered (by simpa using hr)
    rw [hnone] at hle
    exact .inr ⟨th, hi, hle.trans (Nat.zero_le _)⟩

theorem retire (h : BackendInv cfg k s) (hs : s.worker = .retire down kept (i :: rest))
    (hi : s.threads[i]? = some th) :
    BackendInv cfg k { s with
      worker :=
        if th.alive then .retire down (kept ++ [i]) rest else .retireDead down kept i rest } := by
  have hok := h.worker
  rw [hs] at hok
  obtain ⟨hdown, hcovered⟩ := hok
  split
  next halive =>
    refine h.moves (fun j => by rw [hs]; rfl) ⟨hdown, ?_⟩
    rw [List.append_assoc]
    exact hcovered
  next hdead =>
    exact h.moves (fun j => by rw [hs]; rfl) ⟨hdown, hcovered, th, hi, by simpa using hdead⟩

theorem retireDead (h : BackendInv cfg k s) (hs : s.worker = .retireDead down kept i rest)
    (hi : s.threads[i]? = some th) (ha : th.available = (avail, th')) :
    BackendInv cfg k { s.setThread i th' with
      worker := .retire down (if 0 < avail.toNat then kept ++ [i] else kept) rest } := by
  have hok := h.worker
  rw [hs] at hok
  obtain ⟨hdown, hcovered, hat⟩ := hok
  have hdead := hat.get hi
  obtain ⟨hinv, hk, hreg, hrej, hcases⟩ := (h.threads i th hi).inv.available ha
  refine h.touches hi hinv hk hreg hrej (fun j => by rw [hs]; rfl) fun hl =>
    ⟨hl.down hdown, ?_⟩
  split
  next =>
    rw [List.append_assoc]
    exact hl.covered hcovered rfl
  next hzero =>
    obtain ⟨hrange, hmem⟩ := hl.covered hcovered rfl
    refine ⟨fun j hj => hrange j ?_, fun j hj => ?_⟩
    · rcases List.mem_append.mp hj with hj | hj
      · exact List.mem_append_left _ hj
      · exact List.mem_append_right _ (List.mem_cons_of_mem _ hj)
    · rcases hmem j hj with hj | hfin
      · rcases List.mem_append.mp hj with hj | hj
        · exact .inl (List.mem_append_left _ hj)
        · rcases List.mem_cons.mp hj with rfl | hj
          · refine .inr ⟨th', ?_, (hk.dead hdead).1, ?_⟩
            · exact State.getElem?_setThread hi _
            · rcases hcases with ⟨htaken, -⟩ | ⟨r, off, -, hle⟩
              · exact htaken
              · have := header_le_size r
                have := SIZE_pos t
                omega
          · exact .inl (List.mem_append_right _ hj)
      · exact .inr hfin

theorem pending (h : BackendInv cfg k s) (hs : s.worker = .pending (i :: rest))
    (hi : s.threads[i]? = some th) (ha : th.available = (avail, th')) :
    BackendInv cfg k { s.setThread i th' with
      worker := if 0 < avail.toNat then .top else .pending rest } := by
  have hok := h.worker
  rw [hs] at hok
  obtain ⟨hrange, hdrained⟩ := hok
  obtain ⟨hinv, hk, hreg, hrej, hcases⟩ := (h.threads i th hi).inv.available ha
  refine h.touches hi hinv hk hreg hrej ?_ fun hl => ?_
  · intro j
    rw [hs]
    split <;> rfl
  · split
    next => trivial
    next hzero =>
      refine ⟨hl.inRange fun j hj => hrange j (List.mem_cons_of_mem _ hj), ?_⟩
      obtain ⟨m, hm, hn⟩ := hl.drained hdrained
      refine ⟨m, hm, fun j n hj => ?_⟩
      rcases hn j n hj with hmem | htaken
      · rcases List.mem_cons.mp hmem with rfl | hmem
        · have hle := (h.mark m j n hm hj).get hi
          refine .inr ⟨th', ?_, ?_⟩
          · exact State.getElem?_setThread hi _
          · rcases hcases with ⟨htaken, -⟩ | ⟨r, off, -, hsize⟩
            · rw [htaken]
              exact hle.trans hk.committed.length_le
            · have := header_le_size r
              have := SIZE_pos t
              omega
        · exact .inl hmem
      · exact .inr htaken

/-- Every step of the worker keeps the invariant. -/
theorem work (h : BackendInv cfg k s) (hw : s.work cfg = some s') : BackendInv cfg k s' := by
  have hok := h.worker
  unfold State.work at hw
  split at hw
  next hs =>
    cases hw
    exact h.top hs
  next down hs =>
    cases hw
    rw [hs] at hok
    exact h.moves (fun j => by rw [hs]; rfl) ⟨hok, h.consumers⟩
  next down hs =>
    cases hw
    rw [hs] at hok
    exact h.moves (fun j => by rw [hs]; rfl) ⟨hok.1, h.consumers, fun j hj => .inl hj⟩
  next down i rest hs =>
    cases hw
    rw [hs] at hok
    exact h.moves (fun j => by rw [hs]; rfl) hok
  next down i rest hs =>
    cases hw
    rw [hs] at hok
    exact h.moves (fun j => by rw [hs]; rfl)
      ⟨hok.1, fun j hj => hok.2 j (List.mem_cons_of_mem _ hj)⟩
  next down i budget rest hs =>
    obtain ⟨th, hi, rfl⟩ := Option.map_eq_some_iff.mp hw
    exact h.poll hs hi rfl
  next down i budget avail rest hs =>
    obtain ⟨th, hi, rfl⟩ := Option.map_eq_some_iff.mp hw
    exact h.peekHeader hs hi
  next down i budget totalLen rest hs =>
    obtain ⟨th, hi, rfl⟩ := Option.map_eq_some_iff.mp hw
    exact h.readRecord hs hi
  next down i budget totalLen d rest hs =>
    obtain ⟨th, hi, rfl⟩ := Option.map_eq_some_iff.mp hw
    exact h.finishRead hs hi
  next down budget rest f sinks hs =>
    cases hw
    exact h.fanout hs
  next down kept hs =>
    cases hw
    exact h.retired hs
  next down kept i rest hs =>
    obtain ⟨th, hi, rfl⟩ := Option.map_eq_some_iff.mp hw
    exact h.retire hs hi
  next down kept i rest hs =>
    obtain ⟨th, hi, rfl⟩ := Option.map_eq_some_iff.mp hw
    exact h.retireDead hs hi rfl
  next hs =>
    cases hw
    exact h.beforePending hs
  next hs =>
    cases hw
    rw [hs] at hok
    exact h.moves (fun j => by rw [hs]; rfl) fun _ => hok.2
  next i rest hs =>
    obtain ⟨th, hi, rfl⟩ := Option.map_eq_some_iff.mp hw
    exact h.pending hs hi rfl
  next => cases hw
  next => cases hw

theorem step (h : BackendInv cfg k s) {e : Event t} (he : Backend.step cfg s e = some s') :
    BackendInv cfg k s' := by
  cases e with
  | spawn =>
    cases he
    exact h.spawn
  | register i =>
    obtain ⟨th, hi, hr⟩ := Option.bind_eq_some_iff.mp he
    exact h.register hi hr
  | act i a =>
    obtain ⟨th, hi, hr⟩ := Option.bind_eq_some_iff.mp he
    obtain ⟨th', ha, rfl⟩ := Option.map_eq_some_iff.mp hr
    exact h.act hi ha
  | setLevel logger level =>
    cases he
    exact h.setLevel _
  | shutdown =>
    cases he
    exact h.shutdown
  | work => exact h.work he

end BackendInv

/-- The invariant holds in every state of every run. -/
theorem backend_invariant {level : t.Ptr → LogLevel} (hs : (system cfg level).Reachable s) :
    ∃ k, BackendInv cfg k s := by
  obtain ⟨k, hk⟩ := roundUp_eq_two_pow cfg.queueCapacity.toNat
  refine ⟨k, hs.invariant (I := BackendInv cfg k) ?_ fun _ _ _ _ h he => h.step he⟩
  exact
    { rounded := hk
      threads := fun i th hi => by simp [system] at hi
      consumers := fun i hi => by simp [system] at hi
      worker := trivial
      flag := rfl
      mark := fun m i n hm => by simp [system] at hm
      fanned := fun p hp => by simp [system] at hp
      calls := fun c hc => by simp [system] at hc
      writeErrors := rfl
      flushErrors := rfl
      panicCount := rfl
      dropped := rfl }

end Insomnilog.Backend
