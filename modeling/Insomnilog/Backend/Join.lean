import Insomnilog.Backend.Shutdown

/-! Calls of `Backend::shutdown` by any number of threads other than the worker, cut into
the store of the flag, the `take` of the join handle, the join, and the loads of the error
counters. -/
namespace Insomnilog.Backend
open Wire Frontend

/-- Where a call of `shutdown` is. From the `take` on, `joins` tells whether it got the
handle. -/
inductive ShutdownCall where
  | idle
  | stored
  | joining
  | reporting (joins : Bool) (counters : List ℕ)
  | returned (joins : Bool) (messages : List String)
  deriving DecidableEq

/-- The call got the handle. -/
def ShutdownCall.tookHandle : ShutdownCall → Bool
  | .joining => true
  | .reporting joins _ => joins
  | .returned joins _ => joins
  | _ => false

/-- The call got the handle, and its join is over. -/
def ShutdownCall.joined : ShutdownCall → Bool
  | .joining => false
  | c => c.tookHandle

/-- The backend, with its calls of `shutdown` by number. `worker` tells whether the handle
is still in its slot. -/
structure Process (t : Target) where
  runner : State t
  worker : Bool
  calls : ℕ → ShutdownCall

inductive ProcessEvent (t : Target) where
  | runner (e : Event t)
  | store (call : ℕ)
  | take (call : ℕ)
  | join (call : ℕ)
  | load (call : ℕ)

variable {t : Target}

/-- `run` has returned, or a panic has left it. -/
def Worker.ended : Worker t → Bool
  | .done => true
  | .unwound => true
  | _ => false

namespace Process

def enter (s : Process t) (c : ℕ) (p : ShutdownCall) : Process t :=
  { s with calls := Function.update s.calls c p }

/-- What `shutdown` prints for the counters it has loaded. -/
def messages (writeErrors flushErrors panicCount droppedRecords : ℕ) : List String :=
  (if 0 < writeErrors ∨ 0 < flushErrors ∨ 0 < panicCount then
    ["insomnilog: sink errors at shutdown — write_record: " ++ toString writeErrors ++
      ", flush: " ++ toString flushErrors ++ ", panics: " ++ toString panicCount] else []) ++
  if 0 < droppedRecords then
    ["insomnilog: " ++ toString droppedRecords ++
      " log record(s) dropped at shutdown (queue full or oversized)"] else []

def take (s : Process t) (c : ℕ) : Process t :=
  if s.worker then { s.enter c .joining with worker := false } else s.enter c (.reporting false [])

/-- The next load of a counter. After the last one the call prints and returns. -/
def load (s : Process t) (c : ℕ) (joins : Bool) : List ℕ → Process t
  | [] => s.enter c (.reporting joins [s.runner.writeErrors])
  | [w] => s.enter c (.reporting joins [w, s.runner.flushErrors])
  | [w, f] => s.enter c (.reporting joins [w, f, s.runner.panicCount])
  | w :: f :: p :: _ => s.enter c (.returned joins (messages w f p s.runner.droppedRecords))

end Process

def processStep (cfg : Config t) (s : Process t) : ProcessEvent t → Option (Process t)
  -- The flag is stored by the calls only.
  | .runner .shutdown => none
  | .runner e => (step cfg s.runner e).map fun r => { s with runner := r }
  | .store c =>
    match s.calls c with
    | .idle => some { s.enter c .stored with runner := s.runner.shutdown }
    | _ => none
  | .take c =>
    match s.calls c with
    | .stored => some (s.take c)
    | _ => none
  | .join c =>
    match s.calls c with
    | .joining => if s.runner.worker.ended then some (s.enter c (.reporting true [])) else none
    | _ => none
  | .load c =>
    match s.calls c with
    | .reporting joins counters => some (s.load c joins counters)
    | _ => none

/-- All runs of a started backend with any number of calls of `shutdown`. -/
def processSystem (cfg : Config t) (level : t.Ptr → LogLevel) :
    StepSystem (Process t) (ProcessEvent t) where
  init := ⟨(system cfg level).init, true, fun _ => .idle⟩
  step := processStep cfg

variable {cfg : Config t} {level : t.Ptr → LogLevel} {s s' : Process t} {e : ProcessEvent t}
  {r r' : State t}

/-- Once `run` has ended, the worker stays where it is. -/
theorem step_ended {ev : Event t} (he : step cfg r ev = some r') (hr : r.worker.ended = true) :
    r'.worker = r.worker := by
  cases ev with
  | spawn =>
    cases he
    rfl
  | register i =>
    obtain ⟨th, -, he⟩ := Option.bind_eq_some_iff.mp he
    unfold State.register at he
    split at he <;> cases he
    rfl
  | act i a =>
    obtain ⟨th, -, he⟩ := Option.bind_eq_some_iff.mp he
    obtain ⟨th', -, rfl⟩ := Option.map_eq_some_iff.mp he
    rfl
  | setLevel logger lvl =>
    cases he
    rfl
  | shutdown =>
    cases he
    rfl
  | work =>
    cases hw : r.worker with
    | done => simp [step, State.work, hw] at he
    | unwound => simp [step, State.work, hw] at he
    | _ => simp [hw, Worker.ended] at hr

/-- A flag stored in between was stored after what was committed before. -/
structure Follows (r r' : State t) : Prop where
  grows : Grows r r'
  marked : r.mark = none → ∀ m : List ℕ, r'.mark = some m →
    ∀ (i : ℕ) (th : Thread t), r.threads[i]? = some th →
      ∃ n, m[i]? = some n ∧ th.committed.length ≤ n

theorem Follows.refl (r : State t) : Follows r r :=
  ⟨.refl r, fun hnone m hm => by cases hnone.symm.trans hm⟩

theorem Follows.trans {r'' : State t} (h : Follows r r') (h' : Follows r' r'') :
    Follows r r'' := by
  refine ⟨h.grows.trans h'.grows, fun hnone m hm i th hi => ?_⟩
  cases hmark : r'.mark with
  | none =>
    obtain ⟨th', hi', hp⟩ := h.grows.committed i th hi
    obtain ⟨n, hn, hle⟩ := h'.marked hmark m hm i th' hi'
    exact ⟨n, hn, hp.length_le.trans hle⟩
  | some m' =>
    obtain rfl := Option.some.inj ((h'.grows.mark m' hmark).symm.trans hm)
    exact h.marked hnone m' hmark i th hi

theorem step_follows (hr : (system cfg level).Reachable r) {ev : Event t}
    (he : step cfg r ev = some r') : Follows r r' := by
  refine ⟨step_grows hr he, fun hnone m hm i th hi => ?_⟩
  have hkept (hmark : r'.mark = r.mark) : False := by
    rw [hmark, hnone] at hm
    cases hm
  cases ev with
  | shutdown =>
    cases he
    simp only [State.shutdown, hnone, Option.none_or, Option.some.injEq] at hm
    subst hm
    exact ⟨th.committed.length, by simp [hi], le_rfl⟩
  | spawn =>
    cases he
    exact (hkept rfl).elim
  | register j =>
    obtain ⟨u, -, hr'⟩ := Option.bind_eq_some_iff.mp he
    unfold State.register at hr'
    split at hr' <;> cases hr'
    exact (hkept rfl).elim
  | act j a =>
    obtain ⟨u, -, hr'⟩ := Option.bind_eq_some_iff.mp he
    obtain ⟨u', -, rfl⟩ := Option.map_eq_some_iff.mp hr'
    exact (hkept rfl).elim
  | setLevel logger lvl =>
    cases he
    exact (hkept rfl).elim
  | work => exact (hkept (work_frame he).mark).elim

/-- All that a step can be: one of the runner, or one of a call. -/
theorem processStep_cases (he : processStep cfg s e = some s') :
    (∃ ev r, e = .runner ev ∧ step cfg s.runner ev = some r ∧ s' = { s with runner := r }) ∨
    (∃ c, e = .store c ∧ s.calls c = .idle ∧
      s' = { s.enter c .stored with runner := s.runner.shutdown }) ∨
    (∃ c, e = .take c ∧ s.calls c = .stored ∧ s' = s.take c) ∨
    (∃ c, e = .join c ∧ s.calls c = .joining ∧ s.runner.worker.ended = true ∧
      s' = s.enter c (.reporting true [])) ∨
    ∃ c joins counters, e = .load c ∧ s.calls c = .reporting joins counters ∧
      s' = s.load c joins counters := by
  unfold processStep at he
  split at he
  case h_1 => cases he
  case h_2 ev _ =>
    obtain ⟨r, hr, rfl⟩ := Option.map_eq_some_iff.mp he
    exact .inl ⟨ev, r, rfl, hr, rfl⟩
  case h_3 c =>
    split at he <;> cases he
    next hc => exact .inr (.inl ⟨c, rfl, hc, rfl⟩)
  case h_4 c =>
    split at he <;> cases he
    next hc => exact .inr (.inr (.inl ⟨c, rfl, hc, rfl⟩))
  case h_5 c =>
    split at he
    next hc =>
      obtain ⟨hended, he⟩ := Option.ite_none_right_eq_some.mp he
      exact .inr (.inr (.inr (.inl ⟨c, rfl, hc, hended, (Option.some.inj he).symm⟩)))
    · cases he
  case h_6 c =>
    split at he <;> cases he
    next joins counters hc => exact .inr (.inr (.inr (.inr ⟨c, joins, counters, rfl, hc, rfl⟩)))

/-- What a call can rely on once it has got the handle. -/
structure ProcessInv (cfg : Config t) (level : t.Ptr → LogLevel) (s : Process t) : Prop where
  runner : (system cfg level).Reachable s.runner
  handle : s.worker = true → ∀ c, (s.calls c).tookHandle = false
  oneTaker : ∀ c d, (s.calls c).tookHandle = true → (s.calls d).tookHandle = true → c = d
  joined : ∀ c, (s.calls c).joined = true → s.runner.worker.ended = true

namespace ProcessInv

/-- A call moves on without a change of what it took. -/
theorem enter (h : ProcessInv cfg level s) {c : ℕ} {p : ShutdownCall}
    (htook : p.tookHandle = (s.calls c).tookHandle)
    (hjoined : p.joined = true → s.runner.worker.ended = true) :
    ProcessInv cfg level (s.enter c p) := by
  have hsame (d : ℕ) : ((s.enter c p).calls d).tookHandle = (s.calls d).tookHandle := by
    by_cases hd : d = c
    · subst hd
      simpa [Process.enter] using htook
    · simp [Process.enter, hd]
  refine ⟨h.runner, fun hw d => ?_, fun d d' hd hd' => ?_, fun d hd => ?_⟩
  · rw [hsame]
    exact h.handle hw d
  · rw [hsame] at hd hd'
    exact h.oneTaker d d' hd hd'
  · by_cases hdc : d = c
    · subst hdc
      exact hjoined (by simpa [Process.enter] using hd)
    · exact h.joined d (by simpa [Process.enter, hdc] using hd)

theorem take (h : ProcessInv cfg level s) {c : ℕ} (hc : s.calls c = .stored) :
    ProcessInv cfg level (s.take c) := by
  unfold Process.take
  split
  next hw =>
    have hother (d : ℕ) (hd : ((s.enter c .joining).calls d).tookHandle = true) : d = c := by
      by_contra hdc
      have hfalse := h.handle hw d
      simp only [Process.enter, Function.update_of_ne hdc] at hd
      simp [hd] at hfalse
    refine ⟨h.runner, nofun, fun d d' hd hd' => (hother d hd).trans (hother d' hd').symm,
      fun d hd => h.joined d ?_⟩
    by_cases hdc : d = c
    · subst hdc
      simp [Process.enter, ShutdownCall.joined] at hd
    · simpa [Process.enter, hdc] using hd
  next hw =>
    apply h.enter
    · simp [hc, ShutdownCall.tookHandle]
    · intro hj
      cases hj

theorem load (h : ProcessInv cfg level s) {c : ℕ} {joins : Bool} {counters : List ℕ}
    (hc : s.calls c = .reporting joins counters) :
    ProcessInv cfg level (s.load c joins counters) := by
  have hjoined (hj : joins = true) : s.runner.worker.ended = true := by
    apply h.joined c
    rw [hc]
    exact hj
  have htook (l : List ℕ) :
      (ShutdownCall.reporting joins l).tookHandle = (s.calls c).tookHandle := by
    rw [hc]
    rfl
  unfold Process.load
  split
  · exact h.enter (htook _) hjoined
  · exact h.enter (htook _) hjoined
  · exact h.enter (htook _) hjoined
  · exact h.enter (p := .returned joins _) (htook []) hjoined

theorem step (h : ProcessInv cfg level s) (he : processStep cfg s e = some s') :
    ProcessInv cfg level s' := by
  rcases processStep_cases he with ⟨ev, r, rfl, hr, rfl⟩ | ⟨c, rfl, hc, rfl⟩ | ⟨c, rfl, hc, rfl⟩ |
    ⟨c, rfl, hc, hended, rfl⟩ | ⟨c, joins, counters, rfl, hc, rfl⟩
  · refine ⟨h.runner.step hr, h.handle, h.oneTaker, fun c hc => ?_⟩
    have hended := h.joined c hc
    rw [step_ended hr hended]
    exact hended
  · have h' : ProcessInv cfg level (s.enter c .stored) := by
      apply h.enter
      · simp [hc, ShutdownCall.tookHandle]
      · intro hj
        cases hj
    exact ⟨h.runner.step (e := .shutdown) rfl, h'.handle, h'.oneTaker, h'.joined⟩
  · exact h.take hc
  · apply h.enter
    · simp [hc, ShutdownCall.tookHandle]
    · exact fun _ => hended
  · exact h.load hc

end ProcessInv

theorem process_invariant (h : (processSystem cfg level).Reachable s) :
    ProcessInv cfg level s :=
  h.invariant ⟨.init, fun _ _ => rfl, nofun, nofun⟩ fun _ _ _ _ hI he => hI.step he

theorem process_follows {s₁ : Process t} {es : List (ProcessEvent t)}
    (h₁ : (processSystem cfg level).Reachable s₁)
    (hrun : (processSystem cfg level).runFrom s₁ es = some s) : Follows s₁.runner s.runner := by
  apply h₁.runFrom_related (R := fun s s' : Process t => Follows s.runner s'.runner) _ _ _ hrun
  · exact fun s => .refl s.runner
  · exact fun _ _ _ h h' => h.trans h'
  · intro s e s' hs he
    have hr := (process_invariant hs).runner
    rcases processStep_cases he with ⟨ev, r, rfl, hev, rfl⟩ | ⟨c, rfl, -, rfl⟩ | ⟨c, rfl, -, rfl⟩ |
      ⟨c, rfl, -, -, rfl⟩ | ⟨c, joins, counters, rfl, -, rfl⟩
    · exact step_follows hr hev
    · have hstore : step cfg s.runner .shutdown = some s.runner.shutdown := rfl
      exact step_follows hr hstore
    · unfold Process.take
      split <;> exact .refl s.runner
    · exact .refl s.runner
    · unfold Process.load
      split <;> exact .refl s.runner

/-- What calls of `shutdown` wait for, in a run from `s₁` to `s`. -/
structure Waits (cfg : Config t) (level : t.Ptr → LogLevel) (s₁ s : Process t) : Prop where
  oneTaker : ∀ c d, (s.calls c).tookHandle = true → (s.calls d).tookHandle = true → c = d
  /-- The call that got the handle waits for the end of `run`. -/
  ended : ∀ c, (s.calls c).joined = true → s.runner.worker = .done ∨ s.runner.worker = .unwound ∧
    ∃ i j e, s.runner.At i (fun th => th.committed[j]? = some e) ∧
      DecoderPanics (cfg.decoders i j) e.record.args
  /-- When `run` has returned by then, the records committed in `s₁` are processed. -/
  drained : ∀ c, (s.calls c).joined = true → cfg.waitForDrain = true → s.runner.worker = .done →
    ∀ i th j e, s₁.runner.threads[i]? = some th → th.committed[j]? = some e →
      s.runner.Processed cfg i j e
  /-- A call that finds the handle taken returns by its own steps alone. -/
  others : ∀ c, s.calls c = .stored → s.worker = false → ∃ s' m, s'.calls c = .returned false m ∧
    s'.runner = s.runner ∧
    (processSystem cfg level).runFrom s (.take c :: List.replicate 4 (.load c)) = some s'

theorem late_call_returns {c : ℕ} (hc : s.calls c = .stored) (hw : s.worker = false) :
    ∃ s' m, s'.calls c = .returned false m ∧ s'.runner = s.runner ∧
      (processSystem cfg level).runFrom s (.take c :: List.replicate 4 (.load c)) = some s' := by
  let r := s.runner
  refine ⟨⟨r, false, Function.update s.calls c (.returned false
    (Process.messages r.writeErrors r.flushErrors r.panicCount r.droppedRecords))⟩, _,
    Function.update_self .., rfl, ?_⟩
  simp [StepSystem.runFrom, processSystem, processStep, hc, Process.take, hw, Process.enter,
    Process.load, r]

/-- The call of `shutdown` that gets the join handle waits for the worker, and with it for
all records committed before the first call. The other calls do not wait. -/
theorem handle_taker_waits {s₁ : Process t} {es : List (ProcessEvent t)}
    (h₁ : (processSystem cfg level).Reachable s₁) (hflag : s₁.runner.shutdownFlag = false)
    (hrun : (processSystem cfg level).runFrom s₁ es = some s) : Waits cfg level s₁ s := by
  have h := process_invariant (h₁.runFrom hrun)
  obtain ⟨k, hinv⟩ := backend_invariant h.runner
  obtain ⟨k₁, hinv₁⟩ := backend_invariant (process_invariant h₁).runner
  have hfollows := process_follows h₁ hrun
  refine ⟨h.oneTaker, fun c hc => ?_, fun c hc hwait hdone i th j e hi he => ?_,
    fun c hc hw => ?_⟩
  · have hended := h.joined c hc
    cases hworker : s.runner.worker with
    | done => exact .inl rfl
    | unwound => exact .inr ⟨rfl, hinv.unwound hworker⟩
    | _ => simp [hworker, Worker.ended] at hended
  · have hnone : s₁.runner.mark = none := by
      apply Option.not_isSome_iff_eq_none.mp
      rw [← hinv₁.flag, hflag]
      decide
    have hok := hinv.worker
    rw [hdone] at hok
    obtain ⟨m, hm, -⟩ := hok hwait
    obtain ⟨n, hn, hle⟩ := hfollows.marked hnone m hm i th hi
    obtain ⟨th', hi', es', hes⟩ := hfollows.grows.committed i th hi
    have hj := (List.getElem?_eq_some_iff.mp he).choose
    apply hinv.done_processed hwait hdone
    refine ⟨⟨th', hi', ?_⟩, m, n, hm, hn, hj.trans_le hle⟩
    change th'.committed[j]? = some e
    rw [← hes]
    exact (List.getElem?_append_left hj).trans he
  · exact late_call_returns hc hw

section Small

def smallProcess : StepSystem (Process small) (ProcessEvent small) :=
  processSystem (smallConfig fun _ => .ok "one") fun _ => .trace

/-- A thread logs a record. -/
def oneRecord : List (ProcessEvent small) :=
  (Event.spawn :: .register 0 :: logCall 0 (customRecord 1)).map .runner

/-- Two calls of `shutdown`, the first of which gets the handle. -/
def twoCalls : List (ProcessEvent small) := [.store 0, .take 0, .store 1, .take 1]

end Small

theorem handle_taker_waits_two_calls :
    ∃ s₁ s, smallProcess.run oneRecord = some s₁ ∧
      smallProcess.runFrom s₁ (twoCalls ++ List.replicate 16 (.runner .work) ++ [.join 0]) =
        some s ∧
      (s.calls 0).joined = true ∧
      Waits (smallConfig fun _ => .ok "one") (fun _ => .trace) s₁ s := by
  have hrun : (smallProcess.run oneRecord).bind (fun s₁ =>
      (smallProcess.runFrom s₁ (twoCalls ++ List.replicate 16 (.runner .work) ++ [.join 0])).map
        fun s => (s₁.runner.shutdownFlag, (s.calls 0).joined)) = some (false, true) := by
    decide +kernel
  obtain ⟨s₁, h₁, hrun⟩ := Option.bind_eq_some_iff.mp hrun
  obtain ⟨s, hs, hvalues⟩ := Option.map_eq_some_iff.mp hrun
  obtain ⟨hflag, hjoined⟩ := Prod.mk.inj hvalues
  exact ⟨s₁, s, h₁, hs, hjoined, handle_taker_waits ⟨_, h₁⟩ hflag hs⟩

/-- The second of two calls returns before the worker has taken the record. -/
theorem second_call_does_not_wait :
    ∃ s, smallProcess.run (oneRecord ++ twoCalls ++ List.replicate 4 (.load 1)) = some s ∧
      s.calls 1 = .returned false [] ∧ s.runner.worker.ended = false ∧
      s.runner.Marked 0 0 ⟨customRecord 1, .trace⟩ ∧
      ¬ s.runner.Processed (smallConfig fun _ => .ok "one") 0 0 ⟨customRecord 1, .trace⟩ := by
  have hcalls : (smallProcess.run (oneRecord ++ twoCalls ++ List.replicate 4 (.load 1))).map
      (fun s => (s.calls 1, s.runner.worker.ended)) = some (.returned false [], false) := by
    decide +kernel
  have hrecords : (smallProcess.run (oneRecord ++ twoCalls ++ List.replicate 4 (.load 1))).map
      (fun s => (s.runner.mark, s.runner.threads.map fun th => (th.committed, th.results.length))) =
      some (some [1], [([⟨customRecord 1, .trace⟩], 0)]) := by decide +kernel
  obtain ⟨s, hs, hvalues⟩ := Option.map_eq_some_iff.mp hrecords
  obtain ⟨hmark, hthreads⟩ := Prod.mk.inj hvalues
  rw [hs, Option.map_some] at hcalls
  obtain ⟨hcall, hworker⟩ := Prod.mk.inj (Option.some.inj hcalls)
  have hfirst : (s.runner.threads.map fun th => (th.committed, th.results.length))[0]? =
      some ([⟨customRecord 1, .trace⟩], 0) := by
    rw [hthreads]
    rfl
  rw [List.getElem?_map] at hfirst
  obtain ⟨th, hi, hth⟩ := Option.map_eq_some_iff.mp hfirst
  obtain ⟨hcommitted, hresults⟩ := Prod.mk.inj hth
  refine ⟨s, hs, hcall, hworker, ⟨⟨th, hi, ?_⟩, [1], 1, hmark, rfl, one_pos⟩, fun hp => ?_⟩
  · change th.committed[0]? = _
    rw [hcommitted]
    rfl
  · obtain ⟨u, hu, -, hlt, -⟩ := hp.taken
    obtain rfl := Option.some.inj (hi.symm.trans hu)
    omega

end Insomnilog.Backend
