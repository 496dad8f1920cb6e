import Insomnilog.Backend.Join

/-! The numbers that `shutdown` prints, which it loads one after the other while the worker and the
threads may still count. -/
namespace Insomnilog.Backend
open Wire Frontend

variable {t : Target} {cfg : Config t} {level : t.Ptr → LogLevel} {r r' : State t}
  {s s' s₁ : Process t} {c : ℕ}

/-- The counters in the order in which `shutdown` loads them. -/
def State.counter (r : State t) : ℕ → ℕ
  | 0 => r.writeErrors
  | 1 => r.flushErrors
  | 2 => r.panicCount
  | _ => r.droppedRecords

/-- Each of the numbers was the counter's at some time from `r` to `r'`. The worker does not count
any more when it has been joined. -/
def Loaded (r r' : State t) (joins : Bool) (counters : List ℕ) : Prop :=
  ∀ k n, counters[k]? = some n → r.counter k ≤ n ∧ n ≤ r'.counter k ∧
    (joins = true → k < 3 → n = r'.counter k)

/-- What a call prints that came to `shutdown` in `r` and has returned in `r'`. -/
structure Report (r r' : State t) (joins : Bool) (printed : List String) : Prop where
  numbers : ∃ w f p d, printed = Process.messages w f p d ∧ Loaded r r' joins [w, f, p, d] ∧
    (joins = true → w = r'.calls.countP (SinkCall.failed .write) ∧
      f = r'.calls.countP (SinkCall.failed .flush) ∧ p = r'.calls.countP SinkCall.panicked)
  /-- If the call that joins the worker prints nothing, nothing has gone wrong. -/
  silent : joins = true → printed = [] → r.droppedRecords = 0 ∧
    ∀ call ∈ r'.calls, ¬ SinkCall.failed .write call ∧ ¬ SinkCall.failed .flush call ∧
      ¬ call.panicked

theorem work_counts (hw : r.work cfg = some r') :
    r.calls <+: r'.calls ∧ r'.droppedRecords = r.droppedRecords := by
  unfold State.work at hw
  split at hw
  case h_6 | h_13 | h_16 =>
    obtain ⟨th, hi, rfl⟩ := Option.map_eq_some_iff.mp hw
    exact ⟨List.prefix_rfl, rfl⟩
  case h_7 =>
    obtain ⟨th, hi, rfl⟩ := Option.map_eq_some_iff.mp hw
    unfold State.peekHeader
    split
    · exact ⟨List.prefix_rfl, rfl⟩
    · dsimp only
      split <;> exact ⟨List.prefix_rfl, rfl⟩
  case h_8 =>
    obtain ⟨th, hi, rfl⟩ := Option.map_eq_some_iff.mp hw
    unfold State.readRecord
    dsimp only
    split
    · exact ⟨List.prefix_rfl, rfl⟩
    · split <;> exact ⟨List.prefix_rfl, rfl⟩
  case h_9 result _ _ =>
    obtain ⟨th, hi, rfl⟩ := Option.map_eq_some_iff.mp hw
    cases result <;> exact ⟨List.prefix_rfl, rfl⟩
  case h_10 sinks _ =>
    cases hw
    cases sinks with
    | nil => exact ⟨List.prefix_rfl, rfl⟩
    | cons sink sinks => exact ⟨List.prefix_append _ _, rfl⟩
  case h_12 =>
    obtain ⟨th, hi, rfl⟩ := Option.map_eq_some_iff.mp hw
    exact ⟨List.prefix_rfl, rfl⟩
  case h_17 | h_18 => cases hw
  all_goals
    cases hw
    exact ⟨List.prefix_rfl, rfl⟩

/-- Calls are only added, and by the worker only. -/
theorem step_counts {e : Event t} (he : step cfg r e = some r') :
    r.calls <+: r'.calls ∧ r.droppedRecords ≤ r'.droppedRecords ∧
      (r.worker.ended = true → r'.calls = r.calls) := by
  cases e with
  | spawn =>
    cases he
    exact ⟨List.prefix_rfl, le_rfl, fun _ => rfl⟩
  | register i =>
    obtain ⟨th, -, he⟩ := Option.bind_eq_some_iff.mp he
    unfold State.register at he
    split at he <;> cases he
    exact ⟨List.prefix_rfl, le_rfl, fun _ => rfl⟩
  | act i a =>
    obtain ⟨th, -, he⟩ := Option.bind_eq_some_iff.mp he
    obtain ⟨th', -, rfl⟩ := Option.map_eq_some_iff.mp he
    exact ⟨List.prefix_rfl, Nat.le_add_right _ _, fun _ => rfl⟩
  | setLevel logger lvl =>
    cases he
    exact ⟨List.prefix_rfl, le_rfl, fun _ => rfl⟩
  | shutdown =>
    cases he
    exact ⟨List.prefix_rfl, le_rfl, fun _ => rfl⟩
  | work =>
    obtain ⟨hcalls, hdropped⟩ := work_counts he
    refine ⟨hcalls, hdropped.ge, fun hended => ?_⟩
    cases hw : r.worker with
    | done => simp [step, State.work, hw] at he
    | unwound => simp [step, State.work, hw] at he
    | _ => simp [hw, Worker.ended] at hended

theorem step_counter (hr : (system cfg level).Reachable r) {e : Event t}
    (he : step cfg r e = some r') (k : ℕ) : r.counter k ≤ r'.counter k ∧
      (r.worker.ended = true → k < 3 → r'.counter k = r.counter k) := by
  obtain ⟨_, h⟩ := backend_invariant hr
  obtain ⟨_, h'⟩ := backend_invariant (hr.step he)
  obtain ⟨hcalls, hdropped, hended⟩ := step_counts he
  obtain _ | _ | _ | k := k
  · simp only [State.counter]
    rw [h.writeErrors, h'.writeErrors]
    exact ⟨hcalls.countP_le, fun hw _ => by rw [hended hw]⟩
  · simp only [State.counter]
    rw [h.flushErrors, h'.flushErrors]
    exact ⟨hcalls.countP_le, fun hw _ => by rw [hended hw]⟩
  · simp only [State.counter]
    rw [h.panicCount, h'.panicCount]
    exact ⟨hcalls.countP_le, fun hw _ => by rw [hended hw]⟩
  · exact ⟨hdropped, fun _ hk => by omega⟩

/-- What a call has loaded so far. -/
def ShutdownCall.Follows (r r' : State t) : ShutdownCall → Prop
  | .reporting joins counters => counters.length ≤ 3 ∧ Loaded r r' joins counters
  | .returned joins printed => ∃ w f p d, printed = Process.messages w f p d ∧
      Loaded r r' joins [w, f, p, d]
  | _ => True

theorem Loaded.mono {r'' : State t} {joins : Bool} {counters : List ℕ}
    (h : Loaded r r' joins counters) (hle : ∀ k, r'.counter k ≤ r''.counter k)
    (heq : joins = true → ∀ k < 3, r''.counter k = r'.counter k) :
    Loaded r r'' joins counters := by
  intro k n hn
  obtain ⟨hlow, hhigh, hfinal⟩ := h k n hn
  exact ⟨hlow, hhigh.trans (hle k), fun hj hk => (hfinal hj hk).trans (heq hj k hk).symm⟩

theorem Loaded.concat {joins : Bool} {counters : List ℕ} (h : Loaded r r' joins counters)
    (hle : ∀ k, r.counter k ≤ r'.counter k) :
    Loaded r r' joins (counters ++ [r'.counter counters.length]) := by
  intro k n hn
  rw [List.getElem?_append] at hn
  split at hn
  next => exact h k n hn
  next hk =>
    obtain ⟨hk', rfl⟩ := List.getElem?_eq_some_iff.mp hn
    have hlast : k = counters.length := by
      simp only [List.length_singleton] at hk'
      omega
    subst hlast
    simp [hle]

/-- The next load, whatever the other calls are doing. -/
theorem Process.load_follows {joins : Bool} {counters : List ℕ}
    (hlength : counters.length ≤ 3) (h : Loaded r s.runner joins counters)
    (hle : ∀ k, r.counter k ≤ s.runner.counter k) :
    (s.load c joins counters).runner = s.runner ∧
      ((s.load c joins counters).calls c).Follows r s.runner := by
  have hnext := h.concat hle
  obtain _ | ⟨w, _ | ⟨f, _ | ⟨p, rest⟩⟩⟩ := counters
  · refine ⟨rfl, ?_⟩
    simpa [Process.load, Process.enter, ShutdownCall.Follows, State.counter] using hnext
  · refine ⟨rfl, ?_⟩
    simpa [Process.load, Process.enter, ShutdownCall.Follows, State.counter] using hnext
  · refine ⟨rfl, ?_⟩
    simpa [Process.load, Process.enter, ShutdownCall.Follows, State.counter] using hnext
  · obtain rfl : rest = [] := by
      apply List.eq_nil_of_length_eq_zero
      simp only [List.length_cons] at hlength
      omega
    refine ⟨rfl, ?_⟩
    simp only [Process.load, Process.enter, Function.update_self, ShutdownCall.Follows]
    exact ⟨w, f, p, s.runner.droppedRecords, rfl, hnext⟩

theorem Process.load_other {joins : Bool} {counters : List ℕ} {d : ℕ} (hd : d ≠ c) :
    (s.load c joins counters).calls d = s.calls d := by
  unfold Process.load Process.enter
  split <;> exact Function.update_of_ne hd _ _

theorem ShutdownCall.Follows.mono {call : ShutdownCall} {r'' : State t} (h : call.Follows r r')
    (hle : ∀ k, r'.counter k ≤ r''.counter k)
    (heq : call.joined = true → ∀ k < 3, r''.counter k = r'.counter k) : call.Follows r r'' := by
  cases call with
  | reporting joins counters => exact ⟨h.1, h.2.mono hle heq⟩
  | returned joins printed =>
    obtain ⟨w, f, p, d, hprinted, hloaded⟩ := h
    exact ⟨w, f, p, d, hprinted, hloaded.mono hle heq⟩
  | _ => trivial

/-- What holds of a call since it came. -/
structure LoadedSince (s₁ : Process t) (c : ℕ) (s : Process t) : Prop where
  counter : ∀ k, s₁.runner.counter k ≤ s.runner.counter k
  call : (s.calls c).Follows s₁.runner s.runner

theorem LoadedSince.enter (h : LoadedSince s₁ c s) {d : ℕ} {call : ShutdownCall}
    (hcall : d = c → call.Follows s₁.runner s.runner) : LoadedSince s₁ c (s.enter d call) := by
  refine ⟨h.counter, ?_⟩
  show (Function.update s.calls d call c).Follows _ _
  by_cases hd : c = d
  · subst hd
    rw [Function.update_self]
    exact hcall rfl
  · rw [Function.update_of_ne hd]
    exact h.call

theorem LoadedSince.step (hs : (processSystem cfg level).Reachable s) (h : LoadedSince s₁ c s)
    {e : ProcessEvent t} (he : processStep cfg s e = some s') : LoadedSince s₁ c s' := by
  have hinv := process_invariant hs
  have hrunner (ev : Event t) {r : State t} (hr : Backend.step cfg s.runner ev = some r) :
      LoadedSince s₁ c { s with runner := r } := by
    have hcounter := step_counter hinv.runner hr
    refine ⟨fun k => (h.counter k).trans (hcounter k).1, ?_⟩
    exact h.call.mono (fun k => (hcounter k).1) fun hj k hk => (hcounter k).2 (hinv.joined c hj) hk
  rcases processStep_cases he with ⟨ev, r, rfl, hr, rfl⟩ | ⟨d, rfl, -, rfl⟩ | ⟨d, rfl, -, rfl⟩ |
    ⟨d, rfl, -, -, rfl⟩ | ⟨d, joins, counters, rfl, hd, rfl⟩
  · exact hrunner ev hr
  · exact (hrunner .shutdown rfl).enter fun _ => trivial
  · unfold Process.take
    split
    · have henter : LoadedSince s₁ c (s.enter d .joining) := h.enter fun _ => trivial
      exact ⟨henter.counter, henter.call⟩
    · exact h.enter fun _ => ⟨Nat.zero_le _, nofun⟩
  · exact h.enter fun _ => ⟨Nat.zero_le _, nofun⟩
  · by_cases hdc : d = c
    · subst hdc
      have hcall := h.call
      rw [hd] at hcall
      obtain ⟨hsame, hfollows⟩ := Process.load_follows (c := d) hcall.1 hcall.2 h.counter
      refine ⟨?_, ?_⟩
      · rw [hsame]
        exact h.counter
      · rw [hsame]
        exact hfollows
    · have hsame : (s.load d joins counters).runner = s.runner := by
        unfold Process.load
        split <;> rfl
      refine ⟨?_, ?_⟩
      · rw [hsame]
        exact h.counter
      · rw [hsame, Process.load_other (Ne.symm hdc)]
        exact h.call

theorem messages_eq_nil {w f p d : ℕ} (h : Process.messages w f p d = []) :
    w = 0 ∧ f = 0 ∧ p = 0 ∧ d = 0 := by
  unfold Process.messages at h
  obtain ⟨herrors, hdropped⟩ := List.append_eq_nil_iff.mp h
  split at herrors
  · cases herrors
  · split at hdropped
    · cases hdropped
    · omega

/-- Whatever the threads, the worker and other calls of `shutdown` do in the meantime. -/
theorem shutdown_reports {es : List (ProcessEvent t)} {joins : Bool} {printed : List String}
    (h₁ : (processSystem cfg level).Reachable s₁) (hidle : s₁.calls c = .idle)
    (hrun : (processSystem cfg level).runFrom s₁ es = some s)
    (hreturned : s.calls c = .returned joins printed) :
    Report s₁.runner s.runner joins printed := by
  have hsince : LoadedSince s₁ c s₁ → LoadedSince s₁ c s := by
    apply h₁.runFrom_related (R := fun u u' => LoadedSince s₁ c u → LoadedSince s₁ c u') _ _ _ hrun
    · exact fun _ h => h
    · exact fun _ _ _ h h' hu => h' (h hu)
    · exact fun _ _ _ hu he h => h.step hu he
  have h := (hsince ⟨fun _ => le_rfl, by rw [hidle]; trivial⟩).call
  obtain ⟨_, hinv⟩ := backend_invariant (process_invariant (h₁.runFrom hrun)).runner
  rw [hreturned] at h
  obtain ⟨w, f, p, d, rfl, hloaded⟩ := h
  have hexact (hj : joins = true) : w = s.runner.calls.countP (SinkCall.failed .write) ∧
      f = s.runner.calls.countP (SinkCall.failed .flush) ∧
      p = s.runner.calls.countP SinkCall.panicked := by
    rw [← hinv.writeErrors, ← hinv.flushErrors, ← hinv.panicCount]
    exact ⟨(hloaded 0 w rfl).2.2 hj (by omega), (hloaded 1 f rfl).2.2 hj (by omega),
      (hloaded 2 p rfl).2.2 hj (by omega)⟩
  refine ⟨⟨w, f, p, d, rfl, hloaded, hexact⟩, fun hj hsilent => ?_⟩
  obtain ⟨rfl, rfl, rfl, rfl⟩ := messages_eq_nil hsilent
  obtain ⟨hw, hf, hp⟩ := hexact hj
  refine ⟨Nat.le_zero.mp (hloaded 3 0 rfl).1, fun call hcall => ⟨?_, ?_, ?_⟩⟩
  · exact List.countP_eq_zero.mp hw.symm call hcall
  · exact List.countP_eq_zero.mp hf.symm call hcall
  · exact List.countP_eq_zero.mp hp.symm call hcall

/-- The only sink fails to write the only record. -/
theorem shutdown_reports_failed_write :
    let cfg := { smallConfig fun _ => .ok "one" with
      sink := fun _ _ _ => ⟨some .trace, .err (), .ok ()⟩ }
    let printed := Process.messages 1 0 0 0
    ∃ s₁ s, (processSystem cfg fun _ => .trace).run oneRecord = some s₁ ∧
      (processSystem cfg fun _ => .trace).runFrom s₁ ([.store 0, .take 0] ++
        List.replicate 16 (.runner .work) ++ [.join 0] ++ List.replicate 4 (.load 0)) = some s ∧
      s.calls 0 = .returned true printed ∧ printed ≠ [] ∧
      Report s₁.runner s.runner true printed := by
  intro cfg printed
  have hrun : ((processSystem cfg fun _ => .trace).run oneRecord).bind (fun s₁ =>
      ((processSystem cfg fun _ => .trace).runFrom s₁ ([.store 0, .take 0] ++
        List.replicate 16 (.runner .work) ++ [.join 0] ++ List.replicate 4 (.load 0))).map
        fun s => (s₁.calls 0, s.calls 0)) = some (.idle, .returned true printed) := by
    decide +kernel
  obtain ⟨s₁, h₁, hrun⟩ := Option.bind_eq_some_iff.mp hrun
  obtain ⟨s, hs, hvalues⟩ := Option.map_eq_some_iff.mp hrun
  obtain ⟨hidle, hreturned⟩ := Prod.mk.inj hvalues
  exact ⟨s₁, s, h₁, hs, hreturned, by decide, shutdown_reports ⟨_, h₁⟩ hidle hs hreturned⟩

end Insomnilog.Backend
