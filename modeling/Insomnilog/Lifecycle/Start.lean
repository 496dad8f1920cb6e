import Insomnilog.Lib.Outcome
import Insomnilog.Lib.StepSystem
import Mathlib.Logic.Function.Basic

/-! The latches `STARTED` and `BACKEND`, with `start` cut into its accesses to shared
state: the exchange on `STARTED`, the spawn, the handshake with the worker and
`BACKEND.set`. -/
namespace Insomnilog.Lifecycle

/-- The value kept in `BACKEND`. -/
structure Backend where
  worker : ℕ
  shutdownFlag : Bool
  deriving DecidableEq

/-- How a call of `start` ended. `unreachable` is the panic after a failed `BACKEND.set`. -/
inductive StartResult where
  | ok
  | alreadyStarted
  | spawnPanicked
  | unreachable
  deriving DecidableEq

/-- The result says that the backend has been started. -/
def StartResult.started : StartResult → Bool
  | .ok => true
  | .alreadyStarted => true
  | _ => false

/-- Where a thread is in a call of `start`. -/
inductive Phase where
  | idle
  /-- The exchange has succeeded. -/
  | won
  /-- In `Backend::start`, waiting for the worker's `ThreadId`. -/
  | spawned (worker : ℕ)
  | built (b : Backend)
  deriving DecidableEq

inductive Call where
  | start (r : StartResult)
  | getBackend (r : Outcome Unit Backend)
  deriving DecidableEq

/-- `workers` holds for each thread spawned whether it has sent its `ThreadId`. The calls
that have ended are recorded in order, each with its thread. -/
structure State where
  started : Bool
  backend : Option Backend
  workers : List Bool
  phase : ℕ → Phase
  ended : List (ℕ × Call)

inductive Event where
  | exchange (thread : ℕ)
  /-- `thread::Builder::spawn`, which the system may refuse. -/
  | spawn (thread : ℕ) (accepted : Bool)
  /-- The worker sends its `ThreadId`. -/
  | send (worker : ℕ)
  | recv (thread : ℕ)
  | set (thread : ℕ)
  | getBackend (thread : ℕ)
  | shutdown (thread : ℕ)
  deriving DecidableEq

namespace State

def enter (s : State) (i : ℕ) (p : Phase) : State :=
  { s with phase := Function.update s.phase i p }

def finish (s : State) (i : ℕ) (c : Call) : State :=
  { s with phase := Function.update s.phase i .idle, ended := s.ended ++ [(i, c)] }

def exchange (s : State) (i : ℕ) : State :=
  if s.started then s.finish i (.start .alreadyStarted)
  else { s.enter i .won with started := true }

def spawn (s : State) (i : ℕ) (accepted : Bool) : State :=
  if accepted then { s.enter i (.spawned s.workers.length) with workers := s.workers ++ [false] }
  else s.finish i (.start .spawnPanicked)

def set (s : State) (i : ℕ) (b : Backend) : State :=
  match s.backend with
  | none => { s.finish i (.start .ok) with backend := some b }
  | some _ => s.finish i (.start .unreachable)

/-- `BACKEND.get().expect(..)`. -/
def getBackend (s : State) : Outcome Unit Backend :=
  match s.backend with
  | some b => .ok b
  | none => .panic

/-- The flag store of `Backend::shutdown`, if there is a backend. -/
def shutdown (s : State) : State :=
  { s with backend := s.backend.map fun b => { b with shutdownFlag := true } }

end State

def step (s : State) : Event → Option State
  | .exchange i => if s.phase i = .idle then some (s.exchange i) else none
  | .spawn i accepted => if s.phase i = .won then some (s.spawn i accepted) else none
  | .send w =>
      if s.workers[w]? = some false then some { s with workers := s.workers.set w true } else none
  | .recv i =>
    match s.phase i with
    | .spawned w => if s.workers[w]? = some true then some (s.enter i (.built ⟨w, false⟩)) else none
    | _ => none
  | .set i =>
    match s.phase i with
    | .built b => some (s.set i b)
    | _ => none
  | .getBackend i =>
      if s.phase i = .idle then some (s.finish i (.getBackend s.getBackend)) else none
  | .shutdown i => if s.phase i = .idle then some s.shutdown else none

/-- All runs of a process, for any number of threads. -/
def system : StepSystem State Event where
  init := ⟨false, none, [], fun _ => .idle, []⟩
  step := step

variable {s s' : State} {e : Event}

/-- All that a step can be. -/
theorem step_cases (h : step s e = some s') :
    (∃ i, e = .exchange i ∧ s.phase i = .idle ∧ s' = s.exchange i) ∨
    (∃ i accepted, e = .spawn i accepted ∧ s.phase i = .won ∧ s' = s.spawn i accepted) ∨
    (∃ w, e = .send w ∧ s' = { s with workers := s.workers.set w true }) ∨
    (∃ i w, e = .recv i ∧ s.phase i = .spawned w ∧ s' = s.enter i (.built ⟨w, false⟩)) ∨
    (∃ i b, e = .set i ∧ s.phase i = .built b ∧ s' = s.set i b) ∨
    (∃ i, e = .getBackend i ∧ s.phase i = .idle ∧ s' = s.finish i (.getBackend s.getBackend)) ∨
    ∃ i, e = .shutdown i ∧ s' = s.shutdown := by
  unfold step at h
  split at h
  case h_1 i =>
    obtain ⟨hp, h⟩ := Option.ite_none_right_eq_some.mp h
    exact .inl ⟨i, rfl, hp, (Option.some.inj h).symm⟩
  case h_2 i accepted =>
    obtain ⟨hp, h⟩ := Option.ite_none_right_eq_some.mp h
    exact .inr (.inl ⟨i, accepted, rfl, hp, (Option.some.inj h).symm⟩)
  case h_3 w =>
    obtain ⟨-, h⟩ := Option.ite_none_right_eq_some.mp h
    exact .inr (.inr (.inl ⟨w, rfl, (Option.some.inj h).symm⟩))
  case h_4 i =>
    split at h
    next w hp =>
      obtain ⟨-, h⟩ := Option.ite_none_right_eq_some.mp h
      exact .inr (.inr (.inr (.inl ⟨i, w, rfl, hp, (Option.some.inj h).symm⟩)))
    · cases h
  case h_5 i =>
    split at h
    next b hp => exact .inr (.inr (.inr (.inr (.inl ⟨i, b, rfl, hp, (Option.some.inj h).symm⟩))))
    · cases h
  case h_6 i =>
    obtain ⟨hp, h⟩ := Option.ite_none_right_eq_some.mp h
    exact .inr (.inr (.inr (.inr (.inr (.inl ⟨i, rfl, hp, (Option.some.inj h).symm⟩)))))
  case h_7 i =>
    obtain ⟨-, h⟩ := Option.ite_none_right_eq_some.mp h
    exact .inr (.inr (.inr (.inr (.inr (.inr ⟨i, rfl, (Option.some.inj h).symm⟩)))))

/-- The latches in every run, also when constructions panic. -/
structure LatchInv (s : State) : Prop where
  fresh : s.started = false →
    (∀ i, s.phase i = .idle) ∧ s.backend = none ∧ s.workers = [] ∧
      ∀ i r, (i, Call.start r) ∉ s.ended
  alone : ∀ i j, s.phase i ≠ .idle → s.phase j ≠ .idle → i = j
  early : ∀ i, s.phase i ≠ .idle → s.backend = none
  first : ∀ i, s.phase i = .won → s.workers = []
  oneWorker : s.workers.length ≤ 1
  oneOk : (s.ended.countP fun p => p.2 = .start .ok) = s.backend.isSome.toNat
  unreachable : ∀ i, (i, Call.start .unreachable) ∉ s.ended

namespace LatchInv

/-- A call that ends without having changed a latch. -/
theorem finish (h : LatchInv s) (i : ℕ) {c : Call} (hok : c ≠ .start .ok)
    (hun : c ≠ .start .unreachable) (hfresh : s.started = false → ∀ r, c ≠ .start r) :
    LatchInv (s.finish i c) := by
  have hidle (j : ℕ) (hj : (s.finish i c).phase j ≠ .idle) : s.phase j ≠ .idle := by
    intro hp
    apply hj
    by_cases hji : j = i
    · simp [State.finish, hji]
    · simpa [State.finish, hji] using hp
  refine
    { fresh := fun hs => ?_
      alone := fun j k hj hk => h.alone j k (hidle j hj) (hidle k hk)
      early := fun j hj => h.early j (hidle j hj)
      first := fun j hj => ?_
      oneWorker := h.oneWorker
      oneOk := ?_
      unreachable := fun j hj => ?_ }
  · obtain ⟨hphase, hbackend, hworkers, hended⟩ := h.fresh hs
    refine ⟨fun j => ?_, hbackend, hworkers, fun j r hj => ?_⟩
    · by_contra hj
      exact hidle j hj (hphase j)
    · rcases List.mem_append.mp hj with hj | hj
      · exact hended j r hj
      · exact hfresh hs r (Prod.mk.inj (List.mem_singleton.mp hj)).2.symm
  · by_cases hji : j = i
    · simp [State.finish, hji] at hj
    · exact h.first j (by simpa [State.finish, hji] using hj)
  · simpa [State.finish, hok] using h.oneOk
  · rcases List.mem_append.mp hj with hj | hj
    · exact h.unreachable j hj
    · exact hun (Prod.mk.inj (List.mem_singleton.mp hj)).2.symm

/-- A step inside the construction, by the thread that carries it out. -/
theorem enter (h : LatchInv s) {i : ℕ} (hi : s.phase i ≠ .idle) {p : Phase} (hp : p ≠ .won)
    {workers : List Bool} (hworkers : workers.length ≤ 1) :
    LatchInv { s.enter i p with workers := workers } := by
  have hother (j : ℕ) (hj : (s.enter i p).phase j ≠ .idle) : j = i := by
    by_contra hji
    refine hji (h.alone j i ?_ hi)
    simpa [State.enter, hji] using hj
  refine
    { fresh := fun hs => absurd ((h.fresh hs).1 i) hi
      alone := fun j k hj hk => (hother j hj).trans (hother k hk).symm
      early := fun j _ => h.early i hi
      first := fun j hj => ?_
      oneWorker := hworkers
      oneOk := h.oneOk
      unreachable := h.unreachable }
  obtain rfl := hother j (by simp_all)
  exact absurd (by simpa [State.enter] using hj) hp

theorem exchange (h : LatchInv s) {i : ℕ} : LatchInv (s.exchange i) := by
  unfold State.exchange
  split
  next hs =>
    apply h.finish
    · simp
    · simp
    · simp [hs]
  next hs =>
    obtain ⟨hphase, hbackend, hworkers, hended⟩ := h.fresh (by simpa using hs)
    have hother (j : ℕ) (hj : (s.enter i .won).phase j ≠ .idle) : j = i := by
      by_contra hji
      apply hj
      simpa [State.enter, hji] using hphase j
    exact
      { fresh := by simp
        alone := fun j k hj hk => (hother j hj).trans (hother k hk).symm
        early := fun _ _ => hbackend
        first := fun _ _ => hworkers
        oneWorker := h.oneWorker
        oneOk := h.oneOk
        unreachable := h.unreachable }

theorem spawn (h : LatchInv s) {i : ℕ} (hi : s.phase i = .won) (accepted : Bool) :
    LatchInv (s.spawn i accepted) := by
  have hi' : s.phase i ≠ .idle := by simp [hi]
  unfold State.spawn
  split
  · apply h.enter hi' (by simp)
    simp [h.first i hi]
  · apply h.finish
    · simp
    · simp
    · intro hs
      exact absurd ((h.fresh hs).1 i) hi'

/-- The branch of `unreachable!` is not taken. -/
theorem set (h : LatchInv s) {i : ℕ} {b : Backend} (hi : s.phase i = .built b) :
    LatchInv (s.set i b) := by
  have hi' : s.phase i ≠ .idle := by simp [hi]
  have hbackend := h.early i hi'
  have hidle (j : ℕ) : (s.finish i (.start .ok)).phase j = .idle := by
    by_cases hji : j = i
    · simp [State.finish, hji]
    · by_contra hj
      apply hji
      apply h.alone j i _ hi'
      simpa [State.finish, hji] using hj
  have hcount := h.oneOk
  rw [hbackend] at hcount
  unfold State.set
  rw [hbackend]
  refine
    { fresh := fun hs => absurd ((h.fresh hs).1 i) hi'
      alone := fun j _ hj => absurd (hidle j) hj
      early := fun j hj => absurd (hidle j) hj
      first := fun j hj => ?_
      oneWorker := h.oneWorker
      oneOk := by simp [State.finish, hcount]
      unreachable := fun j hj => ?_ }
  · have hj' := (hidle j).symm.trans hj
    cases hj'
  · rcases List.mem_append.mp hj with hj | hj
    · exact h.unreachable j hj
    · cases List.mem_singleton.mp hj

theorem shutdown (h : LatchInv s) : LatchInv s.shutdown := by
  refine { h with fresh := fun hs => ?_, early := fun i hi => ?_, oneOk := ?_ }
  · obtain ⟨hphase, hbackend, hrest⟩ := h.fresh hs
    exact ⟨hphase, by simp [State.shutdown, hbackend], hrest⟩
  · simp [State.shutdown, h.early i hi]
  · simpa [State.shutdown] using h.oneOk

theorem step (h : LatchInv s) (he : step s e = some s') : LatchInv s' := by
  rcases step_cases he with ⟨i, rfl, -, rfl⟩ | ⟨i, accepted, rfl, hi, rfl⟩ | ⟨w, rfl, rfl⟩ |
    ⟨i, w, rfl, hi, rfl⟩ | ⟨i, b, rfl, hi, rfl⟩ | ⟨i, rfl, -, rfl⟩ | ⟨i, rfl, rfl⟩
  · exact h.exchange
  · exact h.spawn hi accepted
  · refine { h with fresh := fun hs => ?_, first := fun i hi => ?_, oneWorker := ?_ }
    · obtain ⟨hphase, hbackend, hworkers, hended⟩ := h.fresh hs
      exact ⟨hphase, hbackend, by simp [hworkers], hended⟩
    · simp [h.first i hi]
    · simpa using h.oneWorker
  · exact h.enter (by simp [hi]) (by simp) h.oneWorker
  · exact h.set hi
  · apply h.finish
    · simp
    · simp
    · simp
  · exact h.shutdown

end LatchInv

theorem latch_invariant (h : system.Reachable s) : LatchInv s :=
  h.invariant
    { fresh := fun _ => ⟨fun _ => rfl, rfl, rfl, by simp [system]⟩
      alone := fun i _ hi => absurd rfl hi
      early := fun i hi => absurd rfl hi
      first := fun i hi => by cases hi
      oneWorker := by simp [system]
      oneOk := rfl
      unreachable := by simp [system] }
    fun _ _ _ _ hI he => hI.step he

structure Once (s : State) : Prop where
  oneOk : (s.ended.countP fun p => p.2 = .start .ok) ≤ 1
  oneWorker : s.workers.length ≤ 1
  unreachable : ∀ i, (i, Call.start .unreachable) ∉ s.ended

theorem LatchInv.once (h : LatchInv s) : Once s where
  oneOk := by
    rw [h.oneOk]
    exact Bool.toNat_le _
  oneWorker := h.oneWorker
  unreachable := h.unreachable

/-- A construction of the backend is under way. -/
def State.UnderWay (s : State) : Prop := ∃ i, s.phase i ≠ .idle

/-- Nobody who was told that the backend is started has then failed to get it. -/
def NoPanic (ended : List (ℕ × Call)) : Prop :=
  ∀ i r, r.started = true → ¬ [(i, Call.start r), (i, Call.getBackend .panic)].Sublist ended

/-- What `start` is to guarantee in every state. -/
structure Usable (s : State) : Prop extends Once s where
  /-- A thread that was told that the backend is started can get it. -/
  usable : ∀ i r, (i, Call.start r) ∈ s.ended → r.started = true → s.getBackend ≠ .panic
  noPanic : NoPanic s.ended
  /-- Without a backend, and without a construction under way, the next `start` can succeed. -/
  restored : s.backend = none → ¬ s.UnderWay → s.started = false

/-- The step is not a panic of the construction, nor the exchange of a call that loses to
one which has not yet come to `BACKEND.set`. -/
def Benign (s : State) : Event → Prop
  | .spawn _ accepted => accepted = true
  | .exchange _ => s.started = true → s.backend ≠ none
  | _ => True

instance (s : State) : (e : Event) → Decidable (Benign s e)
  | .exchange _ => inferInstanceAs (Decidable (_ → _))
  | .spawn _ accepted => inferInstanceAs (Decidable (accepted = true))
  | .send _ => .isTrue trivial
  | .recv _ => .isTrue trivial
  | .set _ => .isTrue trivial
  | .getBackend _ => .isTrue trivial
  | .shutdown _ => .isTrue trivial

/-- `STARTED` promises no more than `BACKEND` holds. -/
structure Latched (s : State) : Prop where
  told : s.backend = none → ∀ i r, (i, Call.start r) ∈ s.ended → r.started = false
  noPanic : NoPanic s.ended
  started : s.started = true → s.backend = none → s.UnderWay

theorem NoPanic.concat {ended : List (ℕ × Call)} (h : NoPanic ended) {i : ℕ} {c : Call}
    (hc : c = .getBackend .panic → ∀ r, (i, Call.start r) ∈ ended → r.started = false) :
    NoPanic (ended ++ [(i, c)]) := by
  intro j r hr hsub
  obtain ⟨l₁, l₂, hl, hsub₁, hsub₂⟩ := List.sublist_append_iff.mp hsub
  rcases List.sublist_cons_iff.mp hsub₂ with hnil | ⟨l, rfl, hnil⟩
  · obtain rfl := List.sublist_nil.mp hnil
    rw [List.append_nil] at hl
    exact h j r hr (hl ▸ hsub₁)
  · obtain rfl := List.sublist_nil.mp hnil
    have hl : [(j, Call.start r)] ++ [(j, Call.getBackend .panic)] = l₁ ++ [(i, c)] := hl
    obtain ⟨rfl, hlast⟩ := List.append_inj' hl rfl
    obtain ⟨rfl, rfl⟩ := Prod.mk.inj (List.cons.inj hlast).1
    have hfalse := hc rfl r (List.singleton_sublist.mp hsub₁)
    simp [hr] at hfalse

namespace Latched

theorem enter (h : Latched s) {i : ℕ} {p : Phase} (hp : p ≠ .idle) (started : Bool)
    (workers : List Bool) : Latched { s.enter i p with started, workers } where
  told := h.told
  noPanic := h.noPanic
  started _ _ := ⟨i, by simpa [State.enter] using hp⟩

/-- With a backend, only the history matters. -/
theorem of_backend (hs : s.backend ≠ none) (hp : NoPanic s.ended) : Latched s where
  told hb := absurd hb hs
  noPanic := hp
  started _ hb := absurd hb hs

theorem step (h : Latched s) (hb : Benign s e) (he : step s e = some s') : Latched s' := by
  rcases step_cases he with ⟨i, rfl, -, rfl⟩ | ⟨i, accepted, rfl, -, rfl⟩ | ⟨w, rfl, rfl⟩ |
    ⟨i, w, rfl, -, rfl⟩ | ⟨i, b, rfl, -, rfl⟩ | ⟨i, rfl, hi, rfl⟩ | ⟨i, rfl, rfl⟩
  · unfold State.exchange
    split
    next hs =>
      apply of_backend (s := s.finish i _) (hb hs)
      apply h.noPanic.concat
      simp
    · exact h.enter (by simp) true s.workers
  · obtain rfl : accepted = true := hb
    exact h.enter (by simp) s.started (s.workers ++ [false])
  · exact ⟨h.told, h.noPanic, h.started⟩
  · exact h.enter (by simp) s.started s.workers
  · have hp : NoPanic (s.ended ++ [(i, .start .ok)]) ∧
        NoPanic (s.ended ++ [(i, .start .unreachable)]) := by
      constructor <;> apply h.noPanic.concat <;> simp
    unfold State.set
    split
    · exact of_backend (by simp) hp.1
    next hs => exact of_backend (by simp [State.finish, hs]) hp.2
  · refine ⟨fun hs j r hj => ?_, ?_, fun hs hs' => ?_⟩
    · rcases List.mem_append.mp hj with hj | hj
      · exact h.told hs j r hj
      · cases List.mem_singleton.mp hj
    · apply h.noPanic.concat
      intro hpanic r
      apply h.told
      cases hs : s.backend with
      | none => rfl
      | some b => simp [State.getBackend, hs] at hpanic
    · obtain ⟨j, hj⟩ := h.started hs hs'
      refine ⟨j, ?_⟩
      have hji : j ≠ i := fun hji => hj (hji ▸ hi)
      simpa [State.finish, hji] using hj
  · have hnone : s.shutdown.backend = none ↔ s.backend = none := by simp [State.shutdown]
    exact ⟨fun hs => h.told (hnone.mp hs), h.noPanic, fun hs hs' => h.started hs (hnone.mp hs')⟩

theorem usable (h : Latched s) (hs : LatchInv s) : Usable s where
  toOnce := hs.once
  usable i r hi hr hpanic := by
    have hbackend : s.backend = none := by
      cases hb : s.backend with
      | none => rfl
      | some b => simp [State.getBackend, hb] at hpanic
    simp [h.told hbackend i r hi] at hr
  noPanic := h.noPanic
  restored hb hw := by
    by_contra hs
    exact hw (h.started (by simpa using hs) hb)

end Latched

/-- A step that is not benign ends in a state in which the guarantee is broken. -/
theorem Usable.benign (hs : LatchInv s) (he : step s e = some s') (h : Usable s') :
    Benign s e := by
  cases e with
  | exchange i =>
    intro hstarted hnone
    obtain ⟨-, he⟩ := Option.ite_none_right_eq_some.mp he
    obtain rfl := Option.some.inj he
    rw [State.exchange, if_pos hstarted] at h
    apply h.usable i .alreadyStarted
    · simp [State.finish]
    · rfl
    · simp [State.getBackend, State.finish, hnone]
  | spawn i accepted =>
    obtain ⟨hi, he⟩ := Option.ite_none_right_eq_some.mp he
    obtain rfl := Option.some.inj he
    have hi' : s.phase i ≠ .idle := by simp [hi]
    cases accepted with
    | true => rfl
    | false =>
      rw [State.spawn, if_neg Bool.false_ne_true] at h
      have hstarted : s.started = false := by
        apply h.restored
        · exact hs.early i hi'
        · rintro ⟨j, hj⟩
          by_cases hji : j = i
          · simp [State.finish, hji] at hj
          · apply hji
            apply hs.alone j i _ hi'
            simpa [State.finish, hji] using hj
      exact absurd ((hs.fresh hstarted).1 i) hi'
  | _ => trivial

/-- At most one call succeeds in every run. A run keeps the whole guarantee exactly if no
construction panics in it, and no call loses the exchange while the winner is still on its
way to `BACKEND.set`. -/
theorem start_usable_iff {es : List Event} (hr : system.run es = some s) :
    system.Always Once es ∧ (system.Always Usable es ↔ system.Meets Benign es) := by
  constructor
  · intro fs u _ hu
    exact (latch_invariant ⟨fs, hu⟩).once
  constructor
  · exact StepSystem.Always.meets (fun _ _ _ hu he h => h.benign (latch_invariant hu) he) hr
  · intro h fs u hp hu
    have hinit : Latched system.init :=
      ⟨fun _ => by simp [system], by simp [NoPanic, system], by simp [system]⟩
    have hlatched := h.invariant hinit fun _ _ _ _ hI hb he => hI.step hb he
    exact (hlatched fs u hp hu).usable (latch_invariant ⟨fs, hu⟩)

/-- Thread 0 starts the backend, and thread 1 loses after that. -/
def lateLoser : List Event :=
  [.exchange 0, .spawn 0 true, .send 0, .recv 0, .set 0, .exchange 1, .getBackend 1, .shutdown 0]

theorem start_usable_iff_late_loser :
    ∃ s, system.run lateLoser = some s ∧ system.Always Usable lateLoser := by
  obtain ⟨s, hs⟩ : ∃ s, system.run lateLoser = some s := ⟨_, rfl⟩
  refine ⟨s, hs, (start_usable_iff hs).2.mpr (StepSystem.Meets.of_all ?_)⟩
  decide

/-- A call that loses before the winner's `BACKEND.set`, and one that comes after a refused
spawn, are told that the backend is started, and cannot get it. -/
theorem early_loser_panics :
    (∃ s, system.run [.exchange 0, .exchange 1, .getBackend 1] = some s ∧ ¬ Usable s ∧
      s.ended = [(1, .start .alreadyStarted), (1, .getBackend .panic)]) ∧
    ∃ s, system.run [.exchange 0, .spawn 0 false, .exchange 0, .getBackend 0] = some s ∧
      ¬ Usable s ∧ s.ended =
        [(0, .start .spawnPanicked), (0, .start .alreadyStarted), (0, .getBackend .panic)] := by
  constructor
  · refine ⟨_, rfl, fun h => ?_, rfl⟩
    exact h.usable 1 .alreadyStarted (by decide) rfl rfl
  · refine ⟨_, rfl, fun h => ?_, rfl⟩
    exact h.usable 0 .alreadyStarted (by decide) rfl rfl

end Insomnilog.Lifecycle
