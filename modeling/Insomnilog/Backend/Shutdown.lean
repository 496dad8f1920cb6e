import Insomnilog.Backend.Worker

/-! What has become of the records when `BackendRunner::run` ends. -/
namespace Insomnilog.Backend
open ByteStore Wire Queue Framing Frontend

variable {t : Target} {cfg : Config t} {level : t.Ptr → LogLevel} {k i j : ℕ}
  {s s' s₁ : State t} {th th' : Thread t} {e : Entry t}

/-- Record `j` of thread `i` was taken off its queue, and was given to `fanout_to_sinks`
once if it decoded. -/
structure State.Processed (cfg : Config t) (s : State t) (i j : ℕ) (e : Entry t) : Prop where
  taken : s.At i fun th => th.committed[j]? = some e ∧ j < th.results.length ∧
    th.TakenInOrder cfg i
  fanned : s.fanned.count (i, j) = (e.record.decoded (cfg.decoders i j)).isOk.toNat

/-- Record `j` of thread `i` is `e`, and was committed when the flag was first stored. -/
def State.Marked (s : State t) (i j : ℕ) (e : Entry t) : Prop :=
  (s.At i fun th => th.committed[j]? = some e) ∧
    ∃ (m : List ℕ) (n : ℕ), s.mark = some m ∧ m[i]? = some n ∧ j < n

/-- What was committed stays, and so does the mark. -/
structure Grows (s s' : State t) : Prop where
  committed : ∀ (i : ℕ) (th : Thread t), s.threads[i]? = some th →
    s'.At i fun th' => th.committed <+: th'.committed
  mark : ∀ m : List ℕ, s.mark = some m → s'.mark = some m

theorem Grows.refl (s : State t) : Grows s s :=
  ⟨fun _ th hi => ⟨th, hi, List.prefix_rfl⟩, fun _ hm => hm⟩

theorem Grows.trans {s'' : State t} (h : Grows s s') (h' : Grows s' s'') : Grows s s'' := by
  refine ⟨fun i th hi => ?_, fun m hm => h'.mark m (h.mark m hm)⟩
  obtain ⟨th', hi', hp⟩ := h.committed i th hi
  obtain ⟨th'', hi'', hp'⟩ := h'.committed i th' hi'
  exact ⟨th'', hi'', hp.trans hp'⟩

theorem grows_set (th' : Thread t) (hi : s.threads[i]? = some th)
    (hp : th.committed <+: th'.committed)
    (hthreads : s'.threads = s.threads.set i th') (hmark : s'.mark = s.mark) : Grows s s' := by
  refine ⟨fun j u hj => ?_, fun m hm => hmark ▸ hm⟩
  unfold State.At
  rw [hthreads]
  exact set_related (R := fun _ u u' => u.committed <+: u'.committed) hi hp
    (fun _ _ _ => List.prefix_rfl) hj

theorem grows_eq (hthreads : s'.threads = s.threads) (hmark : s'.mark = s.mark) : Grows s s' :=
  ⟨fun _ th hi => ⟨th, hthreads ▸ hi, List.prefix_rfl⟩, fun _ hm => hmark ▸ hm⟩

/-- What a step of the worker leaves as it is. -/
structure WorkFrame (s s' : State t) : Prop where
  threads : ∀ (i : ℕ) (th : Thread t), s.threads[i]? = some th →
    s'.At i fun th' => th'.committed = th.committed ∧ th'.phase = th.phase
  length : s'.threads.length = s.threads.length
  mark : s'.mark = s.mark

theorem frame_eq (hthreads : s'.threads = s.threads) (hmark : s'.mark = s.mark) : WorkFrame s s' :=
  ⟨fun _ th hi => ⟨th, hthreads ▸ hi, rfl, rfl⟩, by rw [hthreads], hmark⟩

theorem frame_set (th' : Thread t) (hi : s.threads[i]? = some th)
    (hc : th'.committed = th.committed) (hp : th'.phase = th.phase)
    (hthreads : s'.threads = s.threads.set i th') (hmark : s'.mark = s.mark) : WorkFrame s s' := by
  refine ⟨fun j u hj => ?_, by simp [hthreads], hmark⟩
  unfold State.At
  rw [hthreads]
  exact set_related (R := fun _ u u' => u'.committed = u.committed ∧ u'.phase = u.phase) hi
    ⟨hc, hp⟩ (fun _ _ _ => ⟨rfl, rfl⟩) hj

theorem work_frame (hw : s.work cfg = some s') : WorkFrame s s' := by
  unfold State.work at hw
  split at hw
  case h_6 | h_13 | h_16 =>
    obtain ⟨th, hi, rfl⟩ := Option.map_eq_some_iff.mp hw
    exact frame_set th.available.2 hi rfl rfl rfl rfl
  case h_7 =>
    obtain ⟨th, hi, rfl⟩ := Option.map_eq_some_iff.mp hw
    unfold State.peekHeader
    split
    · exact frame_eq rfl rfl
    next c _ =>
      dsimp only
      split <;> exact frame_set (th.withConsumer c) hi rfl rfl rfl rfl
  case h_8 =>
    obtain ⟨th, hi, rfl⟩ := Option.map_eq_some_iff.mp hw
    unfold State.readRecord
    dsimp only
    split
    · exact frame_set th.available.2 hi rfl rfl rfl rfl
    · split <;> exact frame_set th.available.2 hi rfl rfl rfl rfl
  case h_9 result _ _ =>
    obtain ⟨th, hi, rfl⟩ := Option.map_eq_some_iff.mp hw
    cases result <;> exact frame_set (th.advance _ _) hi rfl rfl rfl rfl
  case h_10 sinks _ =>
    cases hw
    cases sinks <;> exact frame_eq rfl rfl
  case h_12 =>
    obtain ⟨th, hi, rfl⟩ := Option.map_eq_some_iff.mp hw
    exact frame_eq rfl rfl
  case h_17 | h_18 => cases hw
  all_goals
    cases hw
    exact frame_eq rfl rfl

theorem WorkFrame.grows (h : WorkFrame s s') : Grows s s' := by
  refine ⟨fun i th hi => ?_, fun m hm => h.mark.trans hm⟩
  obtain ⟨th', hi', hc, -⟩ := h.threads i th hi
  exact ⟨th', hi', hc ▸ List.prefix_rfl⟩

theorem step_grows (hs : (system cfg level).Reachable s) {ev : Event t}
    (he : step cfg s ev = some s') : Grows s s' := by
  obtain ⟨k, hinv⟩ := backend_invariant hs
  cases ev with
  | spawn =>
    cases he
    refine ⟨fun i th hi => ⟨th, ?_, List.prefix_rfl⟩, fun m hm => hm⟩
    exact (List.getElem?_append_left (List.getElem?_eq_some_iff.mp hi).choose).trans hi
  | register i =>
    obtain ⟨th, hi, hr⟩ := Option.bind_eq_some_iff.mp he
    unfold State.register at hr
    split at hr <;> cases hr
    exact grows_set { th with registered := true } hi List.prefix_rfl rfl rfl
  | act i a =>
    obtain ⟨th, hi, hr⟩ := Option.bind_eq_some_iff.mp he
    obtain ⟨th', ha, rfl⟩ := Option.map_eq_some_iff.mp hr
    exact grows_set th' hi ((hinv.threads i th hi).inv.keeps ha).committed rfl rfl
  | setLevel logger lvl =>
    cases he
    exact grows_eq rfl rfl
  | shutdown =>
    cases he
    exact ⟨fun i th hi => ⟨th, hi, List.prefix_rfl⟩, fun m hm => by simp [State.shutdown, hm]⟩
  | work => exact (work_frame he).grows

theorem run_grows {es : List (Event t)} (hs : (system cfg level).Reachable s)
    (hr : (system cfg level).runFrom s es = some s') : Grows s s' :=
  hs.runFrom_related Grows.refl (fun _ _ _ => Grows.trans) (fun _ _ _ hs he => step_grows hs he) hr

namespace BackendInv

theorem count_fanned (h : BackendInv cfg k s) (hi : s.threads[i]? = some th) (j : ℕ) :
    s.fanned.count (i, j) = (th.results[j]?.any Outcome.isOk).toNat := by
  rw [← count_overDecoded i, ← (h.threads i th hi).fanned, List.count_filter (by simp)]

theorem processed (h : BackendInv cfg k s) (hi : s.threads[i]? = some th)
    (he : th.committed[j]? = some e) (hj : j < th.results.length) : s.Processed cfg i j e := by
  have hinv := (h.threads i th hi).inv
  obtain ⟨-, e', he', hd⟩ := hinv.results j _ (List.getElem?_eq_getElem hj)
  obtain rfl := Option.some.inj (he.symm.trans he')
  refine ⟨⟨th, hi, he, hj, hinv.takenInOrder⟩, ?_⟩
  rw [h.count_fanned hi, List.getElem?_eq_getElem hj, ← hd]
  rfl

/-- Nothing that was committed before the flag was stored is left behind. -/
theorem done_processed (h : BackendInv cfg k s) (hwait : cfg.waitForDrain = true)
    (hdone : s.worker = .done) (hm : s.Marked i j e) : s.Processed cfg i j e := by
  obtain ⟨⟨th, hi, he⟩, m, n, hmark, hn, hjn⟩ := hm
  have hok := h.worker
  rw [hdone] at hok
  obtain ⟨m', hmark', hdrained⟩ := hok hwait
  obtain rfl := Option.some.inj (hmark.symm.trans hmark')
  obtain hmem | htaken := hdrained i n hn
  · cases hmem
  · have hle := htaken.get hi
    exact h.processed hi he (by omega)

/-- The worker is never stuck. -/
theorem goes_on (h : BackendInv cfg k s) (hdone : s.worker ≠ .done) (hun : s.worker ≠ .unwound) :
    ∃ s', s.work cfg = some s' := by
  have hfind {i : ℕ} (hi : i < s.threads.length) (f : Thread t → State t) :
      ∃ s', (s.threads[i]?).map f = some s' := ⟨_, by rw [List.getElem?_eq_getElem hi]; rfl⟩
  have hok := h.worker
  unfold State.work
  split
  case h_6 hs =>
    rw [hs] at hok
    exact hfind (hok.2 _ List.mem_cons_self) _
  case h_7 hs | h_8 hs | h_9 hs =>
    rw [hs] at hok
    exact hfind (hok.2.1 _ List.mem_cons_self) _
  case h_12 hs =>
    rw [hs] at hok
    exact hfind (hok.2.1 _ (List.mem_append_right _ List.mem_cons_self)) _
  case h_13 hs =>
    rw [hs] at hok
    exact hfind (hok.2.1.1 _ (List.mem_append_right _ List.mem_cons_self)) _
  case h_16 hs =>
    rw [hs] at hok
    exact hfind (hok.1 _ List.mem_cons_self) _
  case h_17 hs => exact absurd hs hdone
  case h_18 hs => exact absurd hs hun
  all_goals exact ⟨_, rfl⟩

/-- Only a decoder that panics can end `run` by unwinding. -/
theorem unwound (h : BackendInv cfg k s) (hun : s.worker = .unwound) :
    ∃ i j e, s.At i (fun th => th.committed[j]? = some e) ∧
      DecoderPanics (cfg.decoders i j) e.record.args := by
  have hok := h.worker
  rw [hun] at hok
  obtain ⟨i, th, hi, e, he, hpanic⟩ := hok
  exact ⟨i, th.results.length, e, ⟨th, hi, he⟩, Record.decoded_panic_iff.mp hpanic⟩

end BackendInv

section Small

abbrev small : Target := ⟨.w32, .little, true⟩

/-- A record whose only argument has the given decoder. -/
def customRecord (decoder : small.Ptr) : LoggedRecord small where
  timestampNs := 9
  metadataPtr := 0x1000
  loggerPtr := 0x2000
  args := [.custom ⟨decoder, 1, [7], rfl⟩]
  argsSize_lt := by simp [argsSize, Arg.encodedSize, Target.ptrBytes]
  size_lt := by
    simp [argsSize, Arg.encodedSize, RecordHeader.SIZE, Target.bits, Target.ptrBytes]

/-- One logger with one sink, and decoders with fixed results. -/
def smallConfig (decode : small.Ptr → Outcome Unit String) : Config small where
  queueCapacity := 128
  queue := (Queue.new true (128 : BitVec 32)).get (by decide +kernel)
  created := by decide +kernel
  fits := by decide +kernel
  waitForDrain := true
  logger := fun _ => ⟨"root", [0]⟩
  levelOf := fun _ => .info
  decoders := fun _ _ _ decoder _ => decode decoder
  sink := fun _ _ _ => ⟨some .trace, .ok (), .ok ()⟩

def smallSystem (decode : small.Ptr → Outcome Unit String) :
    StepSystem (State small) (Event small) :=
  system (smallConfig decode) fun _ => .trace

/-- A log call of thread `i`, from the check to the commit. -/
def logCall (i : ℕ) (r : LoggedRecord small) : List (Event small) :=
  [.act i (.check r), .act i .reserve, .act i .commit]

end Small

/-- With `wait_for_drain`, every record committed before the flag was first stored is
taken once when `run` returns, and was given to the sinks if it decoded. -/
theorem shutdown_drains (hwait : cfg.waitForDrain = true) (h₁ : (system cfg level).Reachable s₁)
    (hflag : s₁.shutdownFlag = false) {es : List (Event t)}
    (hrun : (system cfg level).runFrom s₁.shutdown es = some s) (hdone : s.worker = .done)
    (hi : s₁.threads[i]? = some th) (he : th.committed[j]? = some e) : s.Processed cfg i j e := by
  obtain ⟨k₁, hinv₁⟩ := backend_invariant h₁
  have hdown : (system cfg level).Reachable s₁.shutdown := h₁.step (e := .shutdown) rfl
  obtain ⟨k, hinv⟩ := backend_invariant (hdown.runFrom hrun)
  have hgrows := run_grows hdown hrun
  have hnone : s₁.mark = none := by
    refine Option.not_isSome_iff_eq_none.mp ?_
    rw [← hinv₁.flag, hflag]
    decide
  obtain ⟨th', hi', es', hes⟩ := hgrows.committed i th hi
  refine hinv.done_processed hwait hdone ⟨⟨th', hi', ?_⟩, _, _,
    hgrows.mark (s₁.threads.map fun th => th.committed.length) ?_, ?_,
    (List.getElem?_eq_some_iff.mp he).choose⟩
  · change th'.committed[j]? = some e
    rw [← hes]
    exact (List.getElem?_append_left (List.getElem?_eq_some_iff.mp he).choose).trans he
  · simp [State.shutdown, hnone]
  · simp [hi]

/-- The thread registers after the worker's snapshot, logs and exits. -/
def lateRun : List (Event small) :=
  List.flatten [[.spawn, .work, .work, .register 0], logCall 0 (customRecord 1), [.act 0 .exit]]

theorem shutdown_drains_late :
    ∃ s₁ s, (smallSystem fun _ => .ok "one").run lateRun = some s₁ ∧
      (smallSystem fun _ => .ok "one").runFrom s₁.shutdown (.replicate 20 .work) = some s ∧
      s.worker = .done ∧
      s.Processed (smallConfig fun _ => .ok "one") 0 0 ⟨customRecord 1, .trace⟩ := by
  have hrun : ((smallSystem fun _ => .ok "one").run lateRun).bind (fun s₁ =>
      ((smallSystem fun _ => .ok "one").runFrom s₁.shutdown (.replicate 20 .work)).map fun s =>
        (s₁.shutdownFlag, s₁.threads.map Thread.committed, s.worker)) =
      some (false, [[⟨customRecord 1, .trace⟩]], .done) := by decide +kernel
  obtain ⟨s₁, h₁, hrun⟩ := Option.bind_eq_some_iff.mp hrun
  obtain ⟨s, hs, hvalues⟩ := Option.map_eq_some_iff.mp hrun
  simp only [Prod.mk.injEq] at hvalues
  obtain ⟨hflag, hthreads, hdone⟩ := hvalues
  have hcommitted : (s₁.threads.map Thread.committed)[0]? = some [⟨customRecord 1, .trace⟩] := by
    rw [hthreads]
    rfl
  rw [List.getElem?_map] at hcommitted
  obtain ⟨th, hi, hth⟩ := Option.map_eq_some_iff.mp hcommitted
  exact ⟨s₁, s, h₁, hs, hdone, shutdown_drains rfl ⟨_, h₁⟩ hflag hs hdone hi (by rw [hth]; rfl)⟩

/-- The worker has not been unwound, it has a next step unless it has returned, and it
returns with every record processed that was committed before the flag was stored. -/
structure State.Survives (cfg : Config t) (s : State t) : Prop where
  alive : s.worker ≠ .unwound
  goes_on : s.worker ≠ .done → ∃ s', s.work cfg = some s'
  drained : s.worker = .done → ∀ i j e, s.Marked i j e → s.Processed cfg i j e

/-- The worker survives the user's code in every run in which no decoder panics. -/
theorem worker_survives (hwait : cfg.waitForDrain = true) (hs : (system cfg level).Reachable s)
    (hdec : ∀ i j e, s.At i (fun th => th.committed[j]? = some e) →
      ¬ DecoderPanics (cfg.decoders i j) e.record.args) : s.Survives cfg := by
  obtain ⟨k, h⟩ := backend_invariant hs
  have halive : s.worker ≠ .unwound := by
    intro hun
    obtain ⟨i, j, e, hat, hpanic⟩ := h.unwound hun
    exact hdec i j e hat hpanic
  exact ⟨halive, fun hdone => h.goes_on hdone halive, fun hdone i j e hm =>
    h.done_processed hwait hdone hm⟩

/-- Two threads log a record each before the flag is stored. -/
def pairRun (decoder : small.Ptr) (n : ℕ) : List (Event small) :=
  List.flatten [[.spawn, .register 0, .spawn, .register 1], logCall 0 (customRecord decoder),
    logCall 1 (customRecord 1), [.shutdown], .replicate n .work]

theorem worker_survives_failing_decoder :
    ∃ s, (smallSystem fun d => if d = 1 then .ok "one" else .err ()).run (pairRun 2 23) = some s ∧
      s.worker = .done ∧
      s.Survives (smallConfig fun d => if d = 1 then .ok "one" else .err ()) := by
  have hrun : ((smallSystem fun d => if d = 1 then .ok "one" else .err ()).run (pairRun 2 23)).map
      State.worker = some .done := by decide +kernel
  obtain ⟨s, hs, hdone⟩ := Option.map_eq_some_iff.mp hrun
  refine ⟨s, hs, hdone, worker_survives rfl ⟨_, hs⟩ ?_⟩
  rintro i j e - ⟨n, c, -, hpanic, -⟩
  simp only [smallConfig] at hpanic
  split at hpanic <;> cases hpanic

/-- A decoder that panics unwinds `run`. The record of the other thread, whose decoder
succeeds, is never taken. -/
theorem panicking_decoder_unwinds :
    ∃ s, (smallSystem fun d => if d = 1 then .ok "one" else .panic).run (pairRun 3 6) = some s ∧
      s.worker = .unwound ∧ s.Marked 1 0 ⟨customRecord 1, .trace⟩ ∧
      DecodersOk ((smallConfig fun d => if d = 1 then .ok "one" else .panic).decoders 1 0)
        (customRecord 1).args ∧
      (s.At 1 fun th => th.results = []) ∧
      ¬ s.Survives (smallConfig fun d => if d = 1 then .ok "one" else .panic) := by
  have hrun : ((smallSystem fun d => if d = 1 then .ok "one" else .panic).run (pairRun 3 6)).map
      (fun s => (s.worker, s.mark, s.threads.map fun th => (th.committed, th.results.length))) =
      some (.unwound, some [1, 1], [([⟨customRecord 3, .trace⟩], 0),
        ([⟨customRecord 1, .trace⟩], 0)]) := by decide +kernel
  obtain ⟨s, hs, hvalues⟩ := Option.map_eq_some_iff.mp hrun
  simp only [Prod.mk.injEq] at hvalues
  obtain ⟨hun, hmark, hthreads⟩ := hvalues
  have hsecond : (s.threads.map fun th => (th.committed, th.results.length))[1]? =
      some ([⟨customRecord 1, .trace⟩], 0) := by
    rw [hthreads]
    rfl
  rw [List.getElem?_map] at hsecond
  obtain ⟨th, hi, hth⟩ := Option.map_eq_some_iff.mp hsecond
  obtain ⟨hcommitted, hresults⟩ := Prod.mk.inj hth
  refine ⟨s, hs, hun, ⟨⟨th, hi, ?_⟩, [1, 1], 1, hmark, rfl, one_pos⟩, ?_,
    ⟨th, hi, List.length_eq_zero_iff.mp hresults⟩, fun hsurvives => hsurvives.alive hun⟩
  · change th.committed[0]? = _
    rw [hcommitted]
    rfl
  · exact Record.decoded_ok_iff.mp ⟨_, rfl⟩

end Insomnilog.Backend
