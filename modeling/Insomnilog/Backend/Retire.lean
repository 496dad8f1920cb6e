import Insomnilog.Backend.Turn

/-! What `retire_dead_consumers` removes and what it keeps, with its loads of `alive` and of
the write position racing against the threads. -/
namespace Insomnilog.Backend
open Wire Frontend StepSystem

variable {t : Target} {cfg : Config t} {level : t.Ptr → LogLevel} {k i : ℕ} {s s' : State t}
  {es : List (Event t)}

/-- A call of `retire_dead_consumers` is under way. -/
def Worker.retiring : Worker t → Bool
  | .retire .. => true
  | .retireDead .. => true
  | _ => false

/-- What the call has kept so far. -/
def Worker.kept : Worker t → List ℕ
  | .retire _ kept _ => kept
  | .retireDead _ kept _ _ => kept
  | _ => []

/-- The call is about to find thread `i` alive, or to find unread records of it. -/
inductive Retains (i : ℕ) (s : State t) : Prop where
  | alive {down : Bool} {kept rest : List ℕ} (hs : s.worker = .retire down kept (i :: rest))
      (hi : s.At i fun th => th.alive = true)
  | unread {down : Bool} {kept rest : List ℕ} (hs : s.worker = .retireDead down kept i rest)
      (hi : s.unread i ≠ [])

theorem Retains.retiring (h : Retains i s) : s.worker.retiring = true := by
  cases h with
  | alive hs => rw [hs]; rfl
  | unread hs => rw [hs]; rfl

/-- A consumer is kept by a step only if it was before, or if its check retains it. -/
theorem Turn.kept (h : Turn cfg s s') (hi : i ∈ s'.worker.kept) :
    s'.worker.retiring = true ∧ (i ∈ s.worker.kept ∨ Retains i s) := by
  cases h with
  | moves hm hunreads hconsumers =>
    generalize hw : s.worker = w at hm
    generalize hw' : s'.worker = w' at hm hi
    cases hm with
    | alive halive =>
      refine ⟨rfl, (List.mem_append.mp hi).imp id fun hmem => ?_⟩
      obtain rfl := List.mem_singleton.mp hmem
      exact .alive hw halive
    | keep hunread =>
      refine ⟨rfl, (List.mem_append.mp hi).imp id fun hmem => ?_⟩
      obtain rfl := List.mem_singleton.mp hmem
      exact .unread hw hunread
    | dead => exact ⟨rfl, .inl hi⟩
    | drop => exact ⟨rfl, .inl hi⟩
    | _ => cases hi
  | takes hs hunread hset hconsumers hw =>
    rcases hw with ⟨-, hw⟩ | ⟨f, -, hw⟩
    all_goals
      rw [hw] at hi
      cases hi
  | @retired down kept hs hunreads hconsumers hw =>
    rw [hw] at hi
    cases down <;> cases hi

/-- Since the start of the call, each consumer kept so far was retained by its check. -/
theorem retained_since (hr : (system cfg level).run es = some s) (hi : i ∈ s.worker.kept) :
    (system cfg level).Since (fun u => u.worker.retiring = true) (Retains i) es := by
  revert hi
  refine run_induction (I := fun es s => i ∈ s.worker.kept →
    (system cfg level).Since (fun u => u.worker.retiring = true) (Retains i) es) ?_ ?_ hr
  · intro hi
    cases hi
  · intro es s e s' hr ih he hi
    obtain ⟨k, h⟩ := backend_invariant ⟨es, hr⟩
    have hr' := run_step hr he
    by_cases hwork : e = .work
    · subst hwork
      obtain ⟨hretiring, hkept | hretains⟩ := (h.turn he).kept hi
      · exact (ih hkept).concat hr' hretiring
      · exact (Since.now hr hretains hretains.retiring).concat hr' hretiring
    · have haside := h.aside he hwork
      rw [haside.worker] at hi
      refine (ih hi).concat hr' ?_
      rw [haside.worker]
      cases hw : s.worker with
      | retire => rfl
      | retireDead => rfl
      | _ => rw [hw] at hi; cases hi

/-- What holds in a state that a run ends in: unread records belong to registered consumers, a
step removes finished consumers only, and a call that is about to return keeps only those it
has found alive or with unread records. -/
structure RetiresSafely (cfg : Config t) (level : t.Ptr → LogLevel) (es : List (Event t))
    (s : State t) : Prop where
  unread : ∀ i, s.unread i ≠ [] → i ∈ s.consumers
  removed : ∀ e s', step cfg s e = some s' → ∀ i ∈ s.consumers, i ∉ s'.consumers →
    s'.At i Thread.Finished
  remaining : ∀ down kept s', s.worker = .retire down kept [] →
    step cfg s .work = some s' → ∀ i ∈ s'.consumers,
      (system cfg level).Since (fun u => u.worker.retiring = true) (Retains i) es

theorem BackendInv.removed (h : BackendInv cfg k s) {e : Event t}
    (he : Backend.step cfg s e = some s') (hi : i ∈ s.consumers) (hi' : i ∉ s'.consumers) :
    s'.At i Thread.Finished := by
  by_cases hwork : e = .work
  · subst hwork
    cases hs : s.worker with
    | retire down kept rest =>
      cases rest with
      | nil =>
        have hok := h.worker
        have hw : s.work cfg = some s' := he
        rw [hs] at hok
        simp only [State.work, hs, Option.some.injEq] at hw
        subst hw
        obtain ⟨-, hcovered⟩ := hok
        rw [List.append_nil] at hcovered
        exact (hcovered.2 i hi).resolve_left hi'
      | cons j rest =>
        cases h.turn he with
        | moves hm hunreads hconsumers => exact absurd (hconsumers ▸ hi) hi'
        | takes hs' => cases hs.symm.trans hs'
        | retired hs' => cases hs.symm.trans hs'
    | _ =>
      cases h.turn he with
      | moves hm hunreads hconsumers => exact absurd (hconsumers ▸ hi) hi'
      | takes hs' hhead hset hconsumers => exact absurd (hconsumers ▸ hi) hi'
      | retired hs' => cases hs.symm.trans hs'
  · rcases (h.aside he hwork).consumers with hsame | ⟨-, j, hadd⟩
    · exact absurd (hsame ▸ hi) hi'
    · exact absurd (hadd ▸ List.mem_append_left _ hi) hi'

/-- In every interleaving of the threads with the worker, retirement loses no record and leaves
no finished consumer behind that it has checked. -/
theorem retirement_keeps_unread (hr : (system cfg level).run es = some s) :
    RetiresSafely cfg level es s := by
  obtain ⟨k, h⟩ := backend_invariant ⟨es, hr⟩
  refine ⟨fun i => h.registered_of_unread, fun e s' he i => h.removed he, ?_⟩
  intro down kept s' hs he i hi
  have hw : s.work cfg = some s' := he
  simp only [State.work, hs, Option.some.injEq] at hw
  subst hw
  refine retained_since hr ?_
  rw [hs]
  exact hi

/-- The thread has registered late, logged and exited. The call finds it dead, but its record
unread, and is about to return. -/
theorem retirement_keeps_unread_late :
    ∃ s, (smallSystem fun _ => .ok "one").run (lateRun ++ .replicate 3 .work) = some s ∧
      s.worker = .retire false [0] [] ∧
      RetiresSafely (smallConfig fun _ => .ok "one") (fun _ => .trace)
        (lateRun ++ .replicate 3 .work) s := by
  have hrun : ((smallSystem fun _ => .ok "one").run (lateRun ++ .replicate 3 .work)).map
      State.worker = some (.retire false [0] []) := by decide +kernel
  obtain ⟨s, hs, hworker⟩ := Option.map_eq_some_iff.mp hrun
  exact ⟨s, hs, hworker, retirement_keeps_unread hs⟩

/-- The last call has returned, and no pass has started since. -/
def Worker.retired : Worker t → Bool
  | .beforePending => true
  | .pending _ => true
  | .done => true
  | _ => false

/-- The call is about to find thread `i` alive, or has returned before it registered. -/
inductive FoundAlive (i : ℕ) (s : State t) : Prop where
  | alive {down : Bool} {kept rest : List ℕ} (hs : s.worker = .retire down kept (i :: rest))
      (hi : s.At i fun th => th.alive = true)
  | later (hs : s.worker.retired = true) (hi : i ∉ s.consumers)

theorem FoundAlive.not_top (h : FoundAlive i s) : s.worker ≠ .top := by
  intro htop
  cases h with
  | alive hs => cases htop.symm.trans hs
  | later hs => rw [htop] at hs; cases hs

/-- The consumers that the call of this pass has kept, also after its return. -/
def State.survivors (s : State t) : List ℕ :=
  if s.worker.retired then s.consumers else s.worker.kept

/-- Those of them that `any_queues_pending` has not found empty yet. -/
def State.unchecked (s : State t) : List ℕ :=
  match s.worker with
  | .beforePending => s.consumers
  | .pending rest => rest
  | w => w.kept

/-- A survivor was one before, or was just kept; and it is not found empty while it has unread
records. -/
theorem Turn.survivors (h : Turn cfg s s') (hwait : cfg.waitForDrain = true)
    (hi : i ∈ s'.survivors) : s'.worker ≠ .top ∧
      (FoundAlive i s ∨ (s'.unread i ≠ [] ∧ i ∈ s'.unchecked) ∨
        i ∈ s.survivors ∧ (s.unread i ≠ [] → i ∈ s.unchecked →
          s'.unread i ≠ [] ∧ i ∈ s'.unchecked)) := by
  unfold State.survivors State.unchecked at *
  cases h with
  | moves hm hunreads hconsumers =>
    have hunread : s'.unread i = s.unread i := by rw [State.unread, hunreads]; rfl
    rw [hunread]
    rw [hconsumers] at hi ⊢
    generalize hw : s.worker = w at hm
    generalize hw' : s'.worker = w' at hm hi
    cases hm with
    | stop hflag hno => rw [hwait] at hno; cases hno
    | alive halive =>
      refine ⟨by rintro ⟨⟩, ?_⟩
      rcases List.mem_append.mp hi with hmem | hmem
      · exact .inr (.inr ⟨hmem, fun h _ => ⟨h, hi⟩⟩)
      · obtain rfl := List.mem_singleton.mp hmem
        exact .inl (.alive hw halive)
    | dead => exact ⟨by rintro ⟨⟩, .inr (.inr ⟨hi, fun h _ => ⟨h, hi⟩⟩)⟩
    | keep hunread =>
      refine ⟨by rintro ⟨⟩, ?_⟩
      rcases List.mem_append.mp hi with hmem | hmem
      · exact .inr (.inr ⟨hmem, fun h _ => ⟨h, hi⟩⟩)
      · obtain rfl := List.mem_singleton.mp hmem
        exact .inr (.inl ⟨hunread, hi⟩)
    | drop => exact ⟨by rintro ⟨⟩, .inr (.inr ⟨hi, fun h _ => ⟨h, hi⟩⟩)⟩
    | beforePending => exact ⟨by rintro ⟨⟩, .inr (.inr ⟨hi, fun h _ => ⟨h, hi⟩⟩)⟩
    | drained => exact ⟨by rintro ⟨⟩, .inr (.inr ⟨hi, fun _ hmem => by cases hmem⟩)⟩
    | next hempty =>
      refine ⟨by rintro ⟨⟩, .inr (.inr ⟨hi, fun h hmem => ⟨h, ?_⟩⟩)⟩
      rcases List.mem_cons.mp hmem with rfl | hmem
      · exact absurd hempty h
      · exact hmem
    | _ => cases hi
  | takes hs hunread hset hconsumers hw =>
    rcases hw with ⟨-, hw⟩ | ⟨f, -, hw⟩
    all_goals
      rw [hw] at hi
      cases hi
  | @retired down kept hs hunreads hconsumers hw =>
    have hunread : s'.unread i = s.unread i := by rw [State.unread, hunreads]; rfl
    rw [hw, hconsumers] at hi ⊢
    rw [hs, hunread]
    cases down with
    | true => exact ⟨by rintro ⟨⟩, .inr (.inr ⟨hi, fun h hmem => ⟨h, hmem⟩⟩)⟩
    | false => cases hi

/-- Registration adds survivors while the registry is not locked, and takes none away. -/
theorem Aside.survivors (h : Aside s s') (hi : i ∈ s'.survivors) : s'.worker ≠ .top ∧
    (FoundAlive i s ∨ i ∈ s.survivors ∧ (s.unread i ≠ [] → i ∈ s.unchecked →
      s'.unread i ≠ [] ∧ i ∈ s'.unchecked)) := by
  have hunread (hne : s.unread i ≠ []) : s'.unread i ≠ [] := by
    intro hnil
    exact hne (List.prefix_nil.mp (hnil ▸ h.unread i))
  have hsubset (hmem : i ∈ s.consumers) : i ∈ s'.consumers := by
    rcases h.consumers with hsame | ⟨-, j, hadd⟩
    · exact hsame ▸ hmem
    · exact hadd ▸ List.mem_append_left _ hmem
  unfold State.survivors State.unchecked at *
  rw [h.worker] at hi ⊢
  refine ⟨fun htop => (by rw [htop] at hi; cases hi), ?_⟩
  by_cases hretired : s.worker.retired = true
  · rw [if_pos hretired] at hi ⊢
    by_cases hmem : i ∈ s.consumers
    · refine .inr ⟨hmem, fun hne hunchecked => ⟨hunread hne, ?_⟩⟩
      cases hw : s.worker with
      | beforePending => exact hsubset hmem
      | _ => rw [hw] at hunchecked; exact hunchecked
    · exact .inl (.later hretired hmem)
  · rw [if_neg hretired] at hi ⊢
    refine .inr ⟨hi, fun hne hunchecked => ⟨hunread hne, ?_⟩⟩
    cases hw : s.worker with
    | beforePending => rw [hw] at hretired; exact absurd rfl hretired
    | _ => rw [hw] at hunchecked; exact hunchecked

/-- Since the start of the pass, each survivor was found alive or has registered late, unless
`any_queues_pending` is going to find its queue pending. -/
theorem survivors_since (hwait : cfg.waitForDrain = true)
    (hr : (system cfg level).run es = some s) (hi : i ∈ s.survivors) :
    (system cfg level).Since (fun u => u.worker ≠ .top) (FoundAlive i) es ∨
      (s.unread i ≠ [] ∧ i ∈ s.unchecked) := by
  revert hi
  refine run_induction (I := fun es s => i ∈ s.survivors →
    (system cfg level).Since (fun u => u.worker ≠ .top) (FoundAlive i) es ∨
      (s.unread i ≠ [] ∧ i ∈ s.unchecked)) ?_ ?_ hr
  · intro hi
    cases hi
  · intro es s e s' hr ih he hi
    obtain ⟨k, h⟩ := backend_invariant ⟨es, hr⟩
    have hr' := run_step hr he
    by_cases hwork : e = .work
    · subst hwork
      obtain ⟨htop, hfound | hunread | ⟨hmem, hkeep⟩⟩ := (h.turn he).survivors hwait hi
      · exact .inl ((Since.now hr hfound hfound.not_top).concat hr' htop)
      · exact .inr hunread
      · rcases ih hmem with hsince | ⟨hunread, hunchecked⟩
        · exact .inl (hsince.concat hr' htop)
        · exact .inr (hkeep hunread hunchecked)
    · obtain ⟨htop, hfound | ⟨hmem, hkeep⟩⟩ := (h.aside he hwork).survivors hi
      · exact .inl ((Since.now hr hfound hfound.not_top).concat hr' htop)
      · rcases ih hmem with hsince | ⟨hunread, hunchecked⟩
        · exact .inl (hsince.concat hr' htop)
        · exact .inr (hkeep hunread hunchecked)

end Insomnilog.Backend
