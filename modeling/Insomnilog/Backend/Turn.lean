import Insomnilog.Backend.Shutdown

/-! A step of the worker, as seen from the unread records and the registry. -/
namespace Insomnilog.Backend
open ByteStore Wire Queue Framing Frontend

variable {t : Target} {cfg : Config t} {k i : ℕ} {s s' : State t} {th th' : Thread t}

/-- The committed records that are not taken, oldest first, each with its index. -/
def Thread.unread (th : Thread t) : List (Entry t × ℕ) := th.committed.zipIdx.drop th.results.length

def State.unreads (s : State t) : List (List (Entry t × ℕ)) := s.threads.map Thread.unread

/-- The unread records of thread `i`, if it exists. -/
def State.unread (s : State t) (i : ℕ) : List (Entry t × ℕ) := s.unreads[i]?.getD []

/-- The steps of the worker that take no record and retire no consumer. -/
inductive Moves (cfg : Config t) (s : State t) : Worker t → Worker t → Prop where
  | stop (hflag : s.shutdownFlag = true) (hwait : cfg.waitForDrain = false) : Moves cfg s .top .done
  | top : Moves cfg s .top (.snapshot s.shutdownFlag)
  | snapshot {down : Bool} : Moves cfg s (.snapshot down) (.visit down s.consumers)
  | visited {down : Bool} : Moves cfg s (.visit down []) (.retire down [] s.consumers)
  | visit {down : Bool} {i : ℕ} {rest : List ℕ} :
      Moves cfg s (.visit down (i :: rest)) (.poll down i MAX_BATCH_PER_CONSUMER rest)
  | full {down : Bool} {i : ℕ} {rest : List ℕ} :
      Moves cfg s (.poll down i 0 rest) (.visit down rest)
  | empty {down : Bool} {i budget : ℕ} {rest : List ℕ} (hi : s.unread i = []) :
      Moves cfg s (.poll down i (budget + 1) rest) (.visit down rest)
  | poll {down : Bool} {i budget : ℕ} {rest : List ℕ} {avail : BitVec t.bits}
      (hi : s.unread i ≠ []) :
      Moves cfg s (.poll down i (budget + 1) rest) (.peek down i budget avail rest)
  | peek {down : Bool} {i budget totalLen : ℕ} {rest : List ℕ} {avail : BitVec t.bits} :
      Moves cfg s (.peek down i budget avail rest) (.read down i budget totalLen rest)
  | read {down : Bool} {i budget totalLen : ℕ} {rest : List ℕ}
      {result : Decoded (RawDecodedRecord t)} :
      Moves cfg s (.read down i budget totalLen rest) (.advance down i budget totalLen result rest)
  | unwind {down : Bool} {i budget totalLen : ℕ} {rest : List ℕ} :
      Moves cfg s (.read down i budget totalLen rest) .unwound
  | fannedOut {down : Bool} {budget : ℕ} {rest sinks : List ℕ} {f : Fanout t} :
      Moves cfg s (.fanout down budget rest f sinks) (.poll down f.thread budget rest)
  | fanout {down : Bool} {budget sink : ℕ} {rest sinks : List ℕ} {f : Fanout t} :
      Moves cfg s (.fanout down budget rest f (sink :: sinks))
        (.fanout down budget rest f.next sinks)
  | alive {down : Bool} {i : ℕ} {kept rest : List ℕ} (hi : s.At i fun th => th.alive = true) :
      Moves cfg s (.retire down kept (i :: rest)) (.retire down (kept ++ [i]) rest)
  | dead {down : Bool} {i : ℕ} {kept rest : List ℕ} (hi : s.At i fun th => th.alive = false) :
      Moves cfg s (.retire down kept (i :: rest)) (.retireDead down kept i rest)
  | keep {down : Bool} {i : ℕ} {kept rest : List ℕ} (hi : s.unread i ≠ []) :
      Moves cfg s (.retireDead down kept i rest) (.retire down (kept ++ [i]) rest)
  | drop {down : Bool} {i : ℕ} {kept rest : List ℕ} (hi : s.unread i = []) :
      Moves cfg s (.retireDead down kept i rest) (.retire down kept rest)
  | beforePending : Moves cfg s .beforePending (.pending s.consumers)
  | drained : Moves cfg s (.pending []) .done
  | found {i : ℕ} {rest : List ℕ} (hi : s.unread i ≠ []) : Moves cfg s (.pending (i :: rest)) .top
  | next {i : ℕ} {rest : List ℕ} (hi : s.unread i = []) :
      Moves cfg s (.pending (i :: rest)) (.pending rest)

/-- All that a step of the worker can be. -/
inductive Turn (cfg : Config t) (s s' : State t) : Prop where
  | moves (hmoves : Moves cfg s s.worker s'.worker) (hunreads : s'.unreads = s.unreads)
      (hconsumers : s'.consumers = s.consumers)
  /-- The oldest unread record is taken. The batch ends if it does not decode. -/
  | takes {down : Bool} {i j budget totalLen : ℕ} {result : Decoded (RawDecodedRecord t)}
      {rest : List ℕ} {e : Entry t} {es : List (Entry t × ℕ)}
      (hs : s.worker = .advance down i budget totalLen result rest)
      (hi : s.unreads[i]? = some ((e, j) :: es)) (hunreads : s'.unreads = s.unreads.set i es)
      (hconsumers : s'.consumers = s.consumers)
      (hw : (¬ DecodersOk (cfg.decoders i j) e.record.args ∧ s'.worker = .visit down rest) ∨
        ∃ f, f.thread = i ∧
          s'.worker = .fanout down budget rest f (cfg.logger e.record.loggerPtr).sinks)
  | retired {down : Bool} {kept : List ℕ} (hs : s.worker = .retire down kept [])
      (hunreads : s'.unreads = s.unreads) (hconsumers : s'.consumers = kept)
      (hw : s'.worker = if down then .beforePending else .top)

theorem Thread.unread_eq_nil_iff : th.unread = [] ↔ th.committed.length ≤ th.results.length := by
  rw [Thread.unread, List.drop_eq_nil_iff, List.length_zipIdx]

/-- The unread records start with the next one to take. -/
theorem Thread.unread_eq_cons {e : Entry t} (he : th.committed[th.results.length]? = some e) :
    th.unread = (e, th.results.length) :: th.committed.zipIdx.drop (th.results.length + 1) := by
  have hlt := (List.getElem?_eq_some_iff.mp he).choose
  have hget := (List.getElem?_eq_some_iff.mp he).choose_spec
  rw [Thread.unread, List.drop_eq_getElem_cons (by simpa using hlt), List.getElem_zipIdx, hget,
    Nat.zero_add]

theorem State.unread_of_getElem? (hi : s.threads[i]? = some th) : s.unread i = th.unread := by
  rw [State.unread, State.unreads, List.getElem?_map, hi]
  rfl

theorem State.unread_of_not_lt (hi : s.threads.length ≤ i) : s.unread i = [] := by
  rw [State.unread, State.unreads, List.getElem?_map, List.getElem?_eq_none hi]
  rfl

/-- A thread whose unread records stay the same. -/
theorem State.unreads_setThread (hi : s.threads[i]? = some th) (hth : th'.unread = th.unread) :
    (s.setThread i th').unreads = s.unreads := by
  have hlt : i < (s.threads.map Thread.unread).length := by
    simpa using (List.getElem?_eq_some_iff.mp hi).choose
  have hget : (s.threads.map Thread.unread)[i] = th'.unread := by
    rw [hth, List.getElem_map, (List.getElem?_eq_some_iff.mp hi).choose_spec]
  show (s.threads.set i th').map Thread.unread = s.threads.map Thread.unread
  rw [List.map_set, ← hget, List.set_getElem_self]

/-- `available` tells whether a record is unread. -/
theorem ThreadInv.available_unread (h : ThreadInv cfg k i th) {avail : BitVec t.bits}
    (ha : th.available = (avail, th')) : th'.unread = th.unread ∧
      ((th.unread = [] ∧ avail.toNat = 0) ∨
        (th.unread ≠ [] ∧ RecordHeader.SIZE t ≤ avail.toNat)) := by
  have hsame : th'.unread = th.unread := by
    have hth' : th' = th.available.2 := by rw [ha]
    rw [hth']
    rfl
  obtain ⟨hinv, -, -, -, hcases⟩ := h.available ha
  refine ⟨hsame, ?_⟩
  rw [← hsame]
  rcases hcases with ⟨htaken, hzero⟩ | ⟨r, off, hp, hle⟩
  · exact .inl ⟨Thread.unread_eq_nil_iff.mpr htaken.ge, hzero⟩
  · refine .inr ⟨fun hnil => ?_, (header_le_size r).trans hle⟩
    have hlt := (List.getElem?_eq_some_iff.mp hp.record).choose
    rw [List.length_map] at hlt
    exact absurd (Thread.unread_eq_nil_iff.mp hnil) (Nat.not_le.mpr hlt)

namespace BackendInv

theorem turn_peekHeader (h : BackendInv cfg k s) {down : Bool} {budget : ℕ} {rest : List ℕ}
    {avail : BitVec t.bits} (hs : s.worker = .peek down i budget avail rest)
    (hi : s.threads[i]? = some th) : Turn cfg s (s.peekHeader down i budget avail rest th) := by
  have hok := h.worker
  rw [hs] at hok
  obtain ⟨r, off, hp, ha⟩ := hok.2.2.get hi
  obtain ⟨c, hpeek, -⟩ := (h.threads i th hi).inv.peek hp
  simp only [State.peekHeader, hpeek, r.announces]
  rw [if_neg (by omega)]
  refine .moves ?_ (State.unreads_setThread hi rfl) rfl
  rw [hs]
  exact .peek

theorem turn_readRecord {down : Bool} {budget totalLen : ℕ} {rest : List ℕ}
    (hs : s.worker = .read down i budget totalLen rest) (hi : s.threads[i]? = some th) :
    Turn cfg s (s.readRecord cfg down i budget totalLen rest th) := by
  unfold State.readRecord
  dsimp only
  split
  · refine .moves ?_ (State.unreads_setThread hi rfl) rfl
    rw [hs]
    exact .unwind
  · split
    · refine .moves ?_ (State.unreads_setThread hi rfl) rfl
      rw [hs]
      exact .unwind
    · refine .moves ?_ (State.unreads_setThread hi rfl) rfl
      rw [hs]
      exact .read

theorem turn_finishRead (h : BackendInv cfg k s) {down : Bool} {budget totalLen : ℕ}
    {rest : List ℕ} {d : Decoded (RawDecodedRecord t)}
    (hs : s.worker = .advance down i budget totalLen d rest) (hi : s.threads[i]? = some th) :
    Turn cfg s (s.finishRead cfg down i budget totalLen d rest th) := by
  have hok := h.worker
  rw [hs] at hok
  obtain ⟨e, off, he, -, -, -, hd, hne⟩ := hok.2.2.get hi
  have hhead : s.unreads[i]? =
      some ((e, th.results.length) :: th.committed.zipIdx.drop (th.results.length + 1)) := by
    rw [State.unreads, List.getElem?_map, hi, Option.map_some, Thread.unread_eq_cons he]
  have hset : (s.setThread i (th.advance totalLen d)).unreads =
      s.unreads.set i (th.committed.zipIdx.drop (th.results.length + 1)) := by
    show (s.threads.set i (th.advance totalLen d)).map Thread.unread = _
    rw [List.map_set]
    congr 1
    rw [Thread.unread, Thread.advance_results, List.length_append, List.length_singleton]
    rfl
  cases d with
  | ok raw =>
    refine .takes hs hhead hset rfl (.inr ⟨⟨i, th.results.length, cfg.logRecord raw, 0⟩, rfl, ?_⟩)
    rw [← (Record.decoded_fields hd.symm).1]
    rfl
  | err error =>
    refine .takes hs hhead hset rfl (.inl ⟨fun hdec => ?_, rfl⟩)
    obtain ⟨raw, hraw⟩ := Record.decoded_ok_iff.mpr hdec
    cases hd.trans hraw
  | panic => exact absurd rfl hne

/-- Every step of the worker is a turn. -/
theorem turn (h : BackendInv cfg k s) (hw : s.work cfg = some s') : Turn cfg s s' := by
  -- what a call of `available` tells, and that it takes nothing
  have hcall {i : ℕ} {th : Thread t} (hi : s.threads[i]? = some th) :
      ((s.unread i = [] ∧ th.available.1.toNat = 0) ∨
        (s.unread i ≠ [] ∧ RecordHeader.SIZE t ≤ th.available.1.toNat)) ∧
      (s.setThread i th.available.2).unreads = s.unreads := by
    obtain ⟨hsame, hcases⟩ := (h.threads i th hi).inv.available_unread rfl
    exact ⟨by rw [State.unread_of_getElem? hi]; exact hcases, State.unreads_setThread hi hsame⟩
  have hpos := SIZE_pos t
  unfold State.work at hw
  split at hw
  next hs =>
    cases hw
    refine .moves ?_ rfl rfl
    rw [hs]
    show Moves cfg s .top (if _ then _ else _)
    split
    next hstop =>
      rw [Bool.and_eq_true, Bool.not_eq_true'] at hstop
      exact .stop hstop.1 hstop.2
    next => exact .top
  next down hs =>
    cases hw
    exact .moves (hs ▸ .snapshot) rfl rfl
  next down hs =>
    cases hw
    exact .moves (hs ▸ .visited) rfl rfl
  next down i rest hs =>
    cases hw
    exact .moves (hs ▸ .visit) rfl rfl
  next down i rest hs =>
    cases hw
    exact .moves (hs ▸ .full) rfl rfl
  next down i budget rest hs =>
    obtain ⟨th, hi, rfl⟩ := Option.map_eq_some_iff.mp hw
    obtain ⟨hcases, hsame⟩ := hcall hi
    refine .moves ?_ hsame rfl
    rw [hs]
    show Moves cfg s _ (if th.available.1.toNat < RecordHeader.SIZE t then _ else _)
    split
    next hshort => exact .empty (hcases.resolve_right fun hlong => by omega).1
    next hlong => exact .poll (hcases.resolve_left fun hshort => by omega).1
  next down i budget avail rest hs =>
    obtain ⟨th, hi, rfl⟩ := Option.map_eq_some_iff.mp hw
    exact h.turn_peekHeader hs hi
  next down i budget totalLen rest hs =>
    obtain ⟨th, hi, rfl⟩ := Option.map_eq_some_iff.mp hw
    exact turn_readRecord hs hi
  next down i budget totalLen d rest hs =>
    obtain ⟨th, hi, rfl⟩ := Option.map_eq_some_iff.mp hw
    exact h.turn_finishRead hs hi
  next down budget rest f sinks hs =>
    cases hw
    cases sinks with
    | nil => exact .moves (hs ▸ .fannedOut) rfl rfl
    | cons sink sinks =>
      refine .moves ?_ rfl rfl
      rw [hs]
      show Moves cfg s _ (if _ then _ else _)
      split
      · exact .fannedOut
      · exact .fanout
  next down kept hs =>
    cases hw
    exact .retired hs rfl rfl rfl
  next down kept i rest hs =>
    obtain ⟨th, hi, rfl⟩ := Option.map_eq_some_iff.mp hw
    refine .moves ?_ rfl rfl
    rw [hs]
    show Moves cfg s _ (if _ then _ else _)
    split
    next halive => exact .alive ⟨th, hi, halive⟩
    next hdead => exact .dead ⟨th, hi, by simpa using hdead⟩
  next down kept i rest hs =>
    obtain ⟨th, hi, rfl⟩ := Option.map_eq_some_iff.mp hw
    obtain ⟨hcases, hsame⟩ := hcall hi
    refine .moves ?_ hsame rfl
    rw [hs]
    show Moves cfg s _ (.retire down (if 0 < th.available.1.toNat then _ else _) rest)
    split
    next hlong => exact .keep (hcases.resolve_left fun hshort => by omega).1
    next hshort => exact .drop (hcases.resolve_right fun hlong => by omega).1
  next hs =>
    cases hw
    exact .moves (hs ▸ .beforePending) rfl rfl
  next hs =>
    cases hw
    exact .moves (hs ▸ .drained) rfl rfl
  next i rest hs =>
    obtain ⟨th, hi, rfl⟩ := Option.map_eq_some_iff.mp hw
    obtain ⟨hcases, hsame⟩ := hcall hi
    refine .moves ?_ hsame rfl
    rw [hs]
    show Moves cfg s _ (if 0 < th.available.1.toNat then _ else _)
    split
    next hlong => exact .found (hcases.resolve_left fun hshort => by omega).1
    next hshort => exact .next (hcases.resolve_right fun hlong => by omega).1
  next => cases hw
  next => cases hw

end BackendInv

/-- What the threads and the registry leave of a state, seen from the worker. -/
structure Aside (s s' : State t) : Prop where
  worker : s'.worker = s.worker
  consumers : s'.consumers = s.consumers ∨
    s.worker.locksRegistry = false ∧ ∃ i, s'.consumers = s.consumers ++ [i]
  unread : ∀ i, s.unread i <+: s'.unread i

theorem Keeps.unread (h : Keeps th th') : th.unread <+: th'.unread := by
  obtain ⟨es, hes⟩ := h.committed
  rw [Thread.unread, Thread.unread, h.results, ← hes, List.zipIdx_append, List.drop_append]
  exact List.prefix_append _ _

theorem unread_prefix (h : ∀ (i : ℕ) (th : Thread t), s.threads[i]? = some th →
    s'.At i fun th' => Keeps th th') (i : ℕ) : s.unread i <+: s'.unread i := by
  rcases Nat.lt_or_ge i s.threads.length with hlt | hge
  · have hi := List.getElem?_eq_getElem hlt
    obtain ⟨th', hi', hk⟩ := h i _ hi
    rw [State.unread_of_getElem? hi, State.unread_of_getElem? hi']
    exact hk.unread
  · rw [State.unread_of_not_lt hge]
    exact List.nil_prefix

theorem unread_prefix_set (hi : s.threads[i]? = some th) (hk : Keeps th th')
    (hthreads : s'.threads = s.threads.set i th') (j : ℕ) : s.unread j <+: s'.unread j := by
  refine unread_prefix (fun j u hj => ?_) j
  unfold State.At
  rw [hthreads]
  exact set_related (R := fun _ u u' => Keeps u u') hi hk (fun _ u _ => .refl u) hj

theorem unread_prefix_eq (hthreads : s'.threads = s.threads) (j : ℕ) :
    s.unread j <+: s'.unread j :=
  unread_prefix (fun _ u hj => ⟨u, hthreads ▸ hj, .refl u⟩) j

/-- Every other step stands aside. -/
theorem BackendInv.aside (h : BackendInv cfg k s) {ev : Event t}
    (he : Backend.step cfg s ev = some s') (hne : ev ≠ .work) : Aside s s' := by
  cases ev with
  | spawn =>
    cases he
    refine ⟨rfl, .inl rfl, unread_prefix fun j u hj => ⟨u, ?_, .refl u⟩⟩
    exact (List.getElem?_append_left (List.getElem?_eq_some_iff.mp hj).choose).trans hj
  | register i =>
    obtain ⟨th, hi, hr⟩ := Option.bind_eq_some_iff.mp he
    unfold State.register at hr
    split at hr
    · cases hr
    next hguard =>
      cases hr
      have hlock : s.worker.locksRegistry = false := by
        simp only [Bool.or_eq_true, not_or, Bool.not_eq_true] at hguard
        exact hguard.1.1
      refine ⟨rfl, .inr ⟨hlock, i, rfl⟩, unread_prefix_set hi ?_ rfl⟩
      exact ⟨rfl, List.prefix_rfl, List.prefix_rfl, fun hd => ⟨hd, rfl⟩, id⟩
  | act i a =>
    obtain ⟨th, hi, hr⟩ := Option.bind_eq_some_iff.mp he
    obtain ⟨th', ha, rfl⟩ := Option.map_eq_some_iff.mp hr
    exact ⟨rfl, .inl rfl, unread_prefix_set hi ((h.threads i th hi).inv.keeps ha) rfl⟩
  | setLevel logger lvl =>
    cases he
    exact ⟨rfl, .inl rfl, unread_prefix_eq rfl⟩
  | shutdown =>
    cases he
    exact ⟨rfl, .inl rfl, unread_prefix_eq rfl⟩
  | work => exact absurd rfl hne

/-- Unread records belong to registered consumers. -/
theorem BackendInv.registered_of_unread (h : BackendInv cfg k s) (hi : s.unread i ≠ []) :
    i ∈ s.consumers := by
  have hlt : i < s.threads.length := by
    by_contra hge
    exact hi (State.unread_of_not_lt (Nat.not_lt.mp hge))
  have hth := List.getElem?_eq_getElem hlt
  have hf := h.threads i _ hth
  rw [State.unread_of_getElem? hth, ne_eq, Thread.unread_eq_nil_iff, Nat.not_le] at hi
  by_cases hr : s.threads[i].registered = true
  · refine (hf.registered hr).resolve_right fun hfin => ?_
    exact absurd hfin.2 (Nat.ne_of_lt hi)
  · obtain ⟨hnone, -⟩ := hf.inv.unregistered (by simpa using hr)
    simp [hnone] at hi

end Insomnilog.Backend
