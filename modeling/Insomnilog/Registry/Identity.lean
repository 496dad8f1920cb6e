import Insomnilog.Registry.Flight

/-! The identity of loggers over whole runs: one creation per name succeeds, and a record
finds the logger it was written with. -/
namespace Insomnilog.Registry
open Wire Frontend Backend

variable {t : Target} {cfg : Config t} {level : t.Ptr → LogLevel} {s s' s₁ : World t} {e : Event t}
  {a : t.Ptr}

theorem Flight.aside (h : Flight cfg level s) (ha : Aside s s') : Flight cfg level s' :=
  have hb : s'.backend = { s.backend with level := s.backend.level } := ha.backend
  h.mono ha.toKept ha.dangling hb fun _ => id

theorem Flight.step (h : Flight cfg level s) (ho : Owners s) (he : step cfg s e = some s') :
    Flight cfg level s' := by
  have hk := (ho.step he).2
  cases e with
  | createLookup name sinks lvl =>
    obtain ⟨-, he⟩ := Option.ite_none_right_eq_some.mp he
    obtain rfl := Option.some.inj he
    exact h.aside (aside_createLookup s name sinks lvl)
  | createInsert a =>
    simp only [Registry.step] at he
    split at he
    next name sinks lvl hw hc =>
      obtain ⟨ha, he⟩ := Option.ite_none_right_eq_some.mp he
      obtain rfl := Option.some.inj he
      rw [ho.createInsert_eq hw] at hk ⊢
      exact h.setLevel hk rfl rfl
    · cases he
  | getLogger name =>
    obtain ⟨-, he⟩ := Option.ite_none_right_eq_some.mp he
    obtain rfl := Option.some.inj he
    exact h.aside (aside_getLogger s name)
  | registerLookup name b =>
    obtain ⟨-, he⟩ := Option.ite_none_right_eq_some.mp he
    obtain rfl := Option.some.inj he
    exact h.aside (aside_registerLookup s name b)
  | registerInsert =>
    simp only [Registry.step] at he
    split at he <;> cases he
    exact h.aside ⟨hk, rfl, rfl⟩
  | getSink name =>
    obtain ⟨-, he⟩ := Option.ite_none_right_eq_some.mp he
    obtain rfl := Option.some.inj he
    exact h.aside (aside_getSink s name)
  | setLevel a lvl =>
    obtain ⟨-, he⟩ := Option.ite_none_right_eq_some.mp he
    obtain rfl := Option.some.inj he
    exact h.setLevel hk rfl rfl
  | runner ev =>
    obtain ⟨hadmits, he⟩ := Option.ite_none_right_eq_some.mp he
    exact h.runner ho hadmits he
  | newSink b | cloneLogger b | dropLogger b | cloneSink b | dropSink b =>
    obtain ⟨-, he⟩ := Option.ite_none_right_eq_some.mp he
    obtain rfl := Option.some.inj he
    exact h.aside ⟨hk, rfl, rfl⟩

/-- The address is that of a registered logger, the same in `s₁` and in `s`, whose sinks
are alive. -/
def Valid (s₁ s : World t) (a : t.Ptr) : Prop :=
  ∃ l, s₁.deref a = some l ∧ s.deref a = some l ∧ s.loggers.find l.name = some a ∧
    ∀ b ∈ l.sinks, (s.sinkHeap.value b).isSome

theorem Owners.valid (h : Owners s) (hk : Kept s₁ s) {l : Logger} (ha : s₁.deref a = some l) :
    Valid s₁ s a :=
  ⟨l, ha, hk.deref a l ha, h.registered (hk.deref a l ha),
    fun _ hb => h.sinks_alive (hk.deref a l ha) hb⟩

theorem Flight.dispatched (h : Flight cfg level s) {down : Bool} {budget : ℕ} {rest sinks : List ℕ}
    {f : Fanout t} (hw : s.backend.worker = .fanout down budget rest f sinks) :
    ∃ th x l, s.backend.threads[f.thread]? = some th ∧ th.committed[f.index]? = some x ∧
      s.deref x.record.loggerPtr = some l ∧ f.record.loggerName = l.name ∧
      sinks = l.sinks.drop f.position := by
  obtain ⟨k, hinv⟩ := backend_invariant (h.backend _ (describes_loggerAt s))
  have hok := hinv.worker
  rw [hw] at hok
  obtain ⟨-, -, th, hi, pre, raw, hresults, hindex, hrecord, hsinks⟩ := hok
  obtain ⟨-, x, hx, hd⟩ := (hinv.threads f.thread th hi).inv.results f.index (.ok raw)
    (by simp [hresults, hindex])
  obtain ⟨l, hl⟩ := h.carried f.thread th x hi (.inl (List.mem_of_getElem? hx))
  have hlogger : s.loggerAt raw.loggerPtr = l := by
    rw [(Record.decoded_fields hd.symm).1]
    exact describes_loggerAt s _ l hl
  refine ⟨th, x, l, hi, hx, hl, ?_, ?_⟩
  · rw [hrecord, ← hlogger]
    rfl
  · rw [hsinks, ← hlogger]
    rfl

section Small

end Small

end Insomnilog.Registry
