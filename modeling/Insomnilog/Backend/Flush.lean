import Insomnilog.Backend.Dispatch

/-! Whether what the sinks were given has been flushed, or a flush of it attempted, when
`BackendRunner::run` returns. -/
namespace Insomnilog.Backend
open Wire Frontend

variable {t : Target} {cfg : Config t} {level : t.Ptr → LogLevel} {sink : ℕ} {s : State t}
  {calls : List (SinkCall t)}

/-- Every write and every flush that fails is followed by a flush of the same sink. -/
def FlushedAtEnd (calls : List (SinkCall t)) : Prop :=
  ∀ before c after, calls = before ++ c :: after →
    c.method = .write ∨ c.method = .flush ∧ c.verdict = .err () →
    ∃ c' ∈ after, c'.sink = c.sink ∧ c'.method = .flush

/-- The writes and flushes of a sink. -/
def attemptsOf (sink : ℕ) (calls : List (SinkCall t)) : List (SinkCall t) :=
  calls.filter fun c => c.sink = sink && c.method ≠ .level

theorem attemptsOf_append (calls calls' : List (SinkCall t)) :
    attemptsOf sink (calls ++ calls') = attemptsOf sink calls ++ attemptsOf sink calls' :=
  List.filter_append _ _

theorem mem_attemptsOf {c : SinkCall t} :
    c ∈ attemptsOf sink calls ↔ c ∈ calls ∧ c.sink = sink ∧ c.method ≠ .level := by
  simp [attemptsOf]

/-- Only the last attempt on each sink counts. -/
theorem flushedAtEnd_iff_last : FlushedAtEnd calls ↔
    ∀ sink c, (attemptsOf sink calls).getLast? = some c →
      c.method = .flush ∧ c.verdict ≠ .err () := by
  constructor
  · intro h sink c hlast
    obtain ⟨front, hfront⟩ := List.getLast?_eq_some_iff.mp hlast
    obtain ⟨before, rest, hcalls, -, hrest⟩ := List.filter_eq_append_iff.mp hfront
    obtain ⟨skipped, after, rfl, -, hc, hafter⟩ := List.filter_eq_cons_iff.mp hrest
    obtain ⟨hsink, hmethod⟩ : c.sink = sink ∧ c.method ≠ .level := by simpa using hc
    -- no attempt on the sink comes after the last one
    have hnone : ¬ ∃ c' ∈ after, c'.sink = c.sink ∧ c'.method = .flush := by
      rintro ⟨c', hmem, hsame, hflush⟩
      have hnot := List.filter_eq_nil_iff.mp hafter c' hmem
      simp [hsame, hsink, hflush] at hnot
    have hfail : ¬ (c.method = .write ∨ c.method = .flush ∧ c.verdict = .err ()) := fun hc =>
      hnone (h (before ++ skipped) c after (by rw [hcalls, List.append_assoc]) hc)
    cases hm : c.method with
    | level => exact absurd hm hmethod
    | write => exact absurd (.inl hm) hfail
    | flush => exact ⟨rfl, fun herr => hfail (.inr ⟨hm, herr⟩)⟩
  · rintro h before c after rfl hc
    have hmethod : c.method ≠ .level := by
      rintro hm
      simp [hm] at hc
    have hself : attemptsOf c.sink [c] = [c] := by simp [attemptsOf, hmethod]
    have hsplit : attemptsOf c.sink (before ++ c :: after) =
        attemptsOf c.sink before ++ c :: attemptsOf c.sink after := by
      rw [← List.singleton_append, attemptsOf_append, attemptsOf_append, hself]
      rfl
    cases hafter : (attemptsOf c.sink after).getLast? with
    | none =>
      rw [List.getLast?_eq_none_iff] at hafter
      have hlast := h c.sink c (by rw [hsplit, hafter]; simp)
      rcases hc with hwrite | ⟨-, herr⟩
      · rw [hwrite] at hlast
        cases hlast.1
      · exact absurd herr hlast.2
    | some c' =>
      have hlast := h c.sink c' (by
        rw [hsplit, List.getLast?_append, List.getLast?_cons, hafter]
        rfl)
      obtain ⟨hmem, hsame, -⟩ := mem_attemptsOf.mp (List.mem_of_getLast? hafter)
      exact ⟨c', hmem, hsame, hlast.1⟩

/-- What the sink at a position returns to the attempts of its round. -/
def SinkScript.attempts (script : SinkScript) : List (Method × Outcome Unit Unit) :=
  (.write, script.write) :: if script.write = .ok () then [(.flush, script.flush)] else []

/-- What `sink` returns for the record, for each of its occurrences whose level lets it pass. -/
def Dispatch.offered (sink : ℕ) (d : Dispatch t) : List SinkScript :=
  (d.sinks.zipIdx.filter fun p => p.1 = sink && (d.script p.2).accepts d.level).map fun p =>
    d.script p.2

theorem visitSink_attempts {script : SinkScript} (h : script.Quiet) (recordLevel : LogLevel) :
    (visitSink script recordLevel).panicked = false ∧
      (visitSink script recordLevel).steps.filter (fun x => x.1 ≠ .level) =
        if script.accepts recordLevel then script.attempts else [] := by
  refine ⟨(visitSink_spec _ _).1.trans (h.panics_eq_false _), ?_⟩
  obtain ⟨hlevel, hwrite, hflush⟩ := h
  unfold visitSink SinkScript.accepts SinkScript.attempts
  cases hl : script.level with
  | none => exact absurd hl hlevel
  | some sinkLevel =>
    dsimp only
    by_cases hlt : recordLevel < sinkLevel
    · have hle : ¬ sinkLevel ≤ recordLevel := fun h => LogLevel.not_lt.mpr h hlt
      simp [hlt, hle]
    · have hle : sinkLevel ≤ recordLevel := LogLevel.not_lt.mp hlt
      rw [if_neg hlt]
      cases hw : script.write with
      | ok u => cases hf : script.flush <;> simp [hle]
      | err u => simp [hle]
      | panic => exact absurd hw hwrite

/-- The attempts on `sink` in the rest of a fan-out, by what they return. -/
theorem Fanout.attempts_remaining {script : ℕ → SinkScript} (h : ∀ p, (script p).Quiet)
    (recordLevel : LogLevel) (f : Fanout t) (sinks : List ℕ) :
    (attemptsOf sink (f.remaining script recordLevel sinks)).map
        (fun c => (c.method, c.verdict)) =
      (((sinks.zipIdx f.position).filter fun p =>
        p.1 = sink && (script p.2).accepts recordLevel).map fun p => script p.2).flatMap
          SinkScript.attempts := by
  induction sinks generalizing f with
  | nil => rfl
  | cons sink' sinks ih =>
    obtain ⟨hpanicked, hattempts⟩ := visitSink_attempts (h f.position) recordLevel
    have hcalls : (attemptsOf sink (f.calls sink' (visitSink (script f.position) recordLevel))).map
        (fun c => (c.method, c.verdict)) =
        if sink' = sink && (script f.position).accepts recordLevel then
          (script f.position).attempts else [] := by
      unfold attemptsOf calls
      rw [List.filter_map, List.map_map]
      by_cases hsink : sink' = sink
      · simpa [Function.comp_def, hsink] using hattempts
      · simp [Function.comp_def, hsink]
    have hnext := ih f.next
    rw [remaining, hpanicked, if_neg (by decide), attemptsOf_append, List.map_append, hcalls, hnext,
      List.zipIdx_cons, List.filter_cons]
    split <;> rfl

theorem Dispatch.attempts_calls {d : Dispatch t} (h : ∀ p, (d.script p).Quiet) :
    (attemptsOf sink d.calls).map (fun c => (c.method, c.verdict)) =
      (d.offered sink).flatMap SinkScript.attempts := by
  rw [calls_eq, Fanout.attempts_remaining h]
  rfl

theorem attempts_dispatches (sink : ℕ) {ds : List (Dispatch t)}
    (h : ∀ d ∈ ds, ∀ p, (d.script p).Quiet) :
    (attemptsOf sink (ds.flatMap Dispatch.calls)).map (fun c => (c.method, c.verdict)) =
      (ds.flatMap (Dispatch.offered sink)).flatMap SinkScript.attempts := by
  induction ds with
  | nil => rfl
  | cons d ds ih =>
    rw [List.flatMap_cons, attemptsOf_append, List.map_append,
      Dispatch.attempts_calls (h d List.mem_cons_self),
      ih fun d hd => h d (List.mem_cons_of_mem _ hd), List.flatMap_cons, List.flatMap_append]

/-- The last attempt of all is the last one of the last round. -/
theorem getLast?_attempts (scripts : List SinkScript) :
    (scripts.flatMap SinkScript.attempts).getLast? =
      scripts.getLast?.bind fun script => script.attempts.getLast? := by
  rcases List.eq_nil_or_concat' scripts with rfl | ⟨front, script, rfl⟩
  · rfl
  · have hne : script.attempts ≠ [] := List.cons_ne_nil _ _
    rw [List.flatMap_append, List.flatMap_singleton, List.getLast?_concat, Option.bind_some,
      List.getLast?_append_of_ne_nil _ hne]

theorem dispatchOf_script {p : ℕ × ℕ} {d : Dispatch t} (h : s.dispatchOf cfg p = some d) :
    d.script = cfg.sink p.1 p.2 := by
  obtain ⟨th, -, h⟩ := Option.bind_eq_some_iff.mp h
  obtain ⟨e, -, h⟩ := Option.bind_eq_some_iff.mp h
  split at h <;> cases h
  rfl

/-- A round ends with a flush that does not fail exactly when both attempts return `Ok`. -/
theorem last_attempt_iff {script : SinkScript} (h : script.Quiet) :
    (∀ x, script.attempts.getLast? = some x → x.1 = .flush ∧ x.2 ≠ .err ()) ↔
      script.write = .ok () ∧ script.flush = .ok () := by
  obtain ⟨-, -, hflush⟩ := h
  unfold SinkScript.attempts
  cases hw : script.write with
  | ok u => cases hf : script.flush <;> simp_all
  | _ => simp

/-- Without panics, what the sinks were given is flushed when `run` has returned if and only if
for each sink both the write and the flush of the last record it was given return `Ok`. -/
theorem flushed_at_end_iff (hquiet : ∀ i j p, (cfg.sink i j p).Quiet)
    (hs : (system cfg level).Reachable s) (hdone : s.worker = .done) :
    FlushedAtEnd s.calls ↔ ∀ sink script,
      ((s.dispatches cfg).flatMap (Dispatch.offered sink)).getLast? = some script →
        script.write = .ok () ∧ script.flush = .ok () := by
  have hcalls : s.calls = (s.dispatches cfg).flatMap Dispatch.calls := by
    have hfin : s.finished cfg = s.tally := finished_of_not_dispatching (by rw [hdone]; rfl)
    have htally := congrArg Tally.calls (hfin.symm.trans (dispatched hs))
    rw [dispatchAll_eq] at htally
    exact htally
  have hscripts : ∀ d ∈ s.dispatches cfg, ∀ p, (d.script p).Quiet := by
    intro d hd p
    obtain ⟨q, -, hq⟩ := List.mem_filterMap.mp hd
    rw [dispatchOf_script hq]
    exact hquiet q.1 q.2 p
  have hoffered (sink : ℕ) : ∀ script ∈ (s.dispatches cfg).flatMap (Dispatch.offered sink),
      script.Quiet := by
    intro script hmem
    obtain ⟨d, hd, hmem⟩ := List.mem_flatMap.mp hmem
    obtain ⟨p, -, rfl⟩ := List.mem_map.mp hmem
    exact hscripts d hd p.2
  rw [flushedAtEnd_iff_last, hcalls]
  refine forall_congr' fun sink => ?_
  have hlast := congrArg List.getLast? (attempts_dispatches sink hscripts)
  rw [List.getLast?_map, getLast?_attempts] at hlast
  constructor
  · intro h script hscript
    refine (last_attempt_iff (hoffered sink script (List.mem_of_getLast? hscript))).mp
      fun x hx => ?_
    rw [hscript, Option.bind_some, hx] at hlast
    obtain ⟨c, hc, rfl⟩ := Option.map_eq_some_iff.mp hlast
    exact h c hc
  · intro h c hc
    rw [hc, Option.map_some] at hlast
    obtain ⟨script, hscript, hx⟩ := Option.bind_eq_some_iff.mp hlast.symm
    have hquiet' := hoffered sink script (List.mem_of_getLast? hscript)
    exact (last_attempt_iff hquiet').mpr (h script hscript) _ hx

/-- A backend whose only sink returns `write` for the record of this index. -/
def flakyConfig (write : ℕ → Outcome Unit Unit) : Config small :=
  { smallConfig fun _ => .ok "one" with
    sink := fun _ index _ => ⟨some .trace, write index, .ok ()⟩ }

def flakySystem (write : ℕ → Outcome Unit Unit) : StepSystem (State small) (Event small) :=
  system (flakyConfig write) fun _ => .trace

/-- One thread logs twice before the flag is stored. -/
def twiceRun (n : ℕ) : List (Event small) :=
  List.flatten [[.spawn, .register 0], logCall 0 (customRecord 1), logCall 0 (customRecord 1),
    [.shutdown], .replicate n .work]

/-- The write of the first record fails, that of the second one does not. -/
theorem flushed_at_end_iff_recovering :
    ∃ s, (flakySystem fun index => if index = 0 then .err () else .ok ()).run
        (twiceRun 22) = some s ∧
      s.worker = .done ∧ (FlushedAtEnd s.calls ↔ ∀ sink script,
        ((s.dispatches (flakyConfig fun index => if index = 0 then .err () else .ok ())).flatMap
          (Dispatch.offered sink)).getLast? = some script →
            script.write = .ok () ∧ script.flush = .ok ()) := by
  have hrun : ((flakySystem fun index => if index = 0 then .err () else .ok ()).run
      (twiceRun 22)).map State.worker = some .done := by decide +kernel
  obtain ⟨s, hs, hdone⟩ := Option.map_eq_some_iff.mp hrun
  refine ⟨s, hs, hdone, flushed_at_end_iff (fun i j p => ?_) ⟨_, hs⟩ hdone⟩
  refine ⟨by simp [flakyConfig], ?_, by simp [flakyConfig]⟩
  simp only [flakyConfig]
  split <;> simp

/-- When the write of the last record fails, `run` returns without a flush. -/
theorem failed_write_not_flushed :
    ∃ s, (flakySystem fun index => if index = 1 then .err () else .ok ()).run
        (twiceRun 22) = some s ∧
      s.worker = .done ∧ ¬ FlushedAtEnd s.calls := by
  have hrun : ((flakySystem fun index => if index = 1 then .err () else .ok ()).run
      (twiceRun 22)).map
        (fun s => (s.worker, (attemptsOf 0 s.calls).getLast?.map SinkCall.method)) =
      some (.done, some .write) := by decide +kernel
  obtain ⟨s, hs, hvalues⟩ := Option.map_eq_some_iff.mp hrun
  obtain ⟨hdone, hlast⟩ := Prod.mk.inj hvalues
  obtain ⟨c, hc, hwrite⟩ := Option.map_eq_some_iff.mp hlast
  refine ⟨s, hs, hdone, fun h => ?_⟩
  obtain ⟨hflush, -⟩ := flushedAtEnd_iff_last.mp h 0 c hc
  cases hwrite.symm.trans hflush

end Insomnilog.Backend
