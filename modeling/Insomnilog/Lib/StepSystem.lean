import Mathlib.Data.List.Induction

/-! Executable transition systems: runs, reachability, and the rules for what holds in
and between the states of a run. A step is a guarded function of the state and an event,
so the guards used by the proofs are the ones a concrete run evaluates. -/

/-- `step s e` is the successor of `s` under `e`, or `none` when `e` is not enabled. -/
structure StepSystem (σ ε : Type*) where
  init : σ
  step : σ → ε → Option σ

namespace StepSystem
variable {σ ε : Type*} {M : StepSystem σ ε}

def runFrom (M : StepSystem σ ε) (s : σ) : List ε → Option σ
  | [] => some s
  | e :: es => (M.step s e).bind fun s' => M.runFrom s' es

def run (M : StepSystem σ ε) (es : List ε) : Option σ := M.runFrom M.init es

/-- Some finite run of the system ends in `s`. -/
def Reachable (M : StepSystem σ ε) (s : σ) : Prop := ∃ es, M.run es = some s

theorem runFrom_append (s : σ) (es fs : List ε) :
    M.runFrom s (es ++ fs) = (M.runFrom s es).bind fun s' => M.runFrom s' fs := by
  induction es generalizing s with
  | nil => rfl
  | cons e es ih =>
    simp only [List.cons_append, runFrom]
    cases M.step s e with
    | none => rfl
    | some s' => exact ih s'

theorem Reachable.init : M.Reachable M.init := ⟨[], rfl⟩

theorem Reachable.runFrom {s s' : σ} {es : List ε} (h : M.Reachable s)
    (hr : M.runFrom s es = some s') : M.Reachable s' := by
  obtain ⟨fs, hf⟩ := h
  refine ⟨fs ++ es, ?_⟩
  rw [run] at hf
  rw [run, runFrom_append, hf]
  exact hr

theorem Reachable.step {s s' : σ} {e : ε} (h : M.Reachable s) (hs : M.step s e = some s') :
    M.Reachable s' := by
  have hr : M.runFrom s [e] = some s' := by simp only [StepSystem.runFrom, hs, Option.bind_some]
  exact h.runFrom hr

/-- The invariant rule. The step obligation may use that its source state is
reachable, so that invariants can be proved one after the other. -/
theorem Reachable.invariant {I : σ → Prop} (hinit : I M.init)
    (hstep : ∀ s e s', M.Reachable s → I s → M.step s e = some s' → I s') {s : σ}
    (h : M.Reachable s) : I s := by
  have key : ∀ (es : List ε) (t : σ), M.Reachable t → I t → M.runFrom t es = some s → I s := by
    intro es
    induction es with
    | nil =>
      intro t _ hI hr
      exact Option.some.inj hr ▸ hI
    | cons e es ih =>
      intro t ht hI hr
      obtain ⟨t', hs, hr'⟩ := Option.bind_eq_some_iff.mp hr
      exact ih t' (ht.step hs) (hstep t e t' ht hI hs) hr'
  obtain ⟨es, hr⟩ := h
  exact key es M.init .init hinit hr

/-- A preorder that every step respects relates the ends of every run. -/
theorem Reachable.runFrom_related {R : σ → σ → Prop} (hrefl : ∀ s, R s s)
    (htrans : ∀ s t u, R s t → R t u → R s u)
    (hstep : ∀ s e s', M.Reachable s → M.step s e = some s' → R s s') {s s' : σ} {es : List ε}
    (h : M.Reachable s) (hr : M.runFrom s es = some s') : R s s' := by
  induction es generalizing s with
  | nil =>
    obtain rfl := Option.some.inj hr
    exact hrefl s
  | cons e es ih =>
    obtain ⟨u, hu, hr'⟩ := Option.bind_eq_some_iff.mp hr
    exact htrans s u s' (hstep s e u h hu) (ih (h.step hu) hr')

theorem run_of_prefix {es fs : List ε} {s : σ} (hr : M.run es = some s) (hp : fs <+: es) :
    ∃ u, M.run fs = some u := by
  obtain ⟨gs, rfl⟩ := hp
  rw [run, runFrom_append] at hr
  obtain ⟨u, hu, -⟩ := Option.bind_eq_some_iff.mp hr
  exact ⟨u, hu⟩

theorem run_concat {es : List ε} {e : ε} {s : σ} (hr : M.run (es ++ [e]) = some s) :
    ∃ u, M.run es = some u ∧ M.step u e = some s := by
  rw [run, runFrom_append] at hr
  obtain ⟨u, hu, hs⟩ := Option.bind_eq_some_iff.mp hr
  obtain ⟨v, hv, hvs⟩ := Option.bind_eq_some_iff.mp hs
  exact ⟨u, hu, hv.trans hvs⟩

theorem run_step {es : List ε} {e : ε} {s s' : σ} (hr : M.run es = some s)
    (hs : M.step s e = some s') : M.run (es ++ [e]) = some s' := by
  rw [run] at hr
  rw [run, runFrom_append, hr, Option.bind_some, runFrom, hs]
  rfl

/-- `P` holds in every state that a run goes through. -/
def Always (M : StepSystem σ ε) (P : σ → Prop) (es : List ε) : Prop :=
  ∀ fs s, fs <+: es → M.run fs = some s → P s

/-- Every step of a run meets `C`, a condition on its event and on the state before it. -/
def Meets (M : StepSystem σ ε) (C : σ → ε → Prop) (es : List ε) : Prop :=
  ∀ fs e s, fs ++ [e] <+: es → M.run fs = some s → C s e

/-- A decidable condition can be checked step by step. -/
theorem Meets.of_all {C : σ → ε → Prop} [∀ s e, Decidable (C s e)] {es : List ε}
    (h : ∀ n < es.length, (M.run (es.take n)).all fun s => es[n]?.all fun e => decide (C s e)) :
    M.Meets C es := by
  intro fs e s hp hr
  obtain ⟨gs, rfl⟩ := hp
  have hn := h fs.length (by simp)
  have htake : (fs ++ [e] ++ gs).take fs.length = fs := by simp
  have hget : (fs ++ [e] ++ gs)[fs.length]? = some e := by simp
  rw [htake, hget, hr] at hn
  exact of_decide_eq_true hn

/-- The invariant rule for the runs whose steps meet a condition. -/
theorem Meets.invariant {I : σ → Prop} {C : σ → ε → Prop} (hinit : I M.init)
    (hstep : ∀ s e s', M.Reachable s → I s → C s e → M.step s e = some s' → I s')
    {es : List ε} (h : M.Meets C es) : M.Always I es := by
  intro fs
  induction fs using List.reverseRecOn with
  | nil =>
    intro s _ hr
    exact Option.some.inj hr ▸ hinit
  | append_singleton fs e ih =>
    intro s hp hr
    obtain ⟨u, hu, hs⟩ := run_concat hr
    exact hstep u e s ⟨fs, hu⟩ (ih u ((List.prefix_append fs [e]).trans hp) hu) (h fs e u hp hu) hs

/-- When every step outside `C` ends in a state without `P`, a run that keeps `P` meets
`C`. -/
theorem Always.meets {P : σ → Prop} {C : σ → ε → Prop}
    (hbreak : ∀ s e s', M.Reachable s → M.step s e = some s' → P s' → C s e) {es : List ε} {s : σ}
    (hr : M.run es = some s) (h : M.Always P es) : M.Meets C es := by
  intro fs e u hp hu
  obtain ⟨v, hv⟩ := run_of_prefix hr hp
  obtain ⟨u', hu', hs⟩ := run_concat hv
  obtain rfl := Option.some.inj (hu.symm.trans hu')
  exact hbreak u e v ⟨fs, hu⟩ hs (h (fs ++ [e]) v hp hv)

/-- The rule for what a state has to do with the run that led to it. -/
theorem run_induction {I : List ε → σ → Prop} (hinit : I [] M.init)
    (hstep : ∀ es s e s', M.run es = some s → I es s → M.step s e = some s' → I (es ++ [e]) s')
    {es : List ε} {s : σ} (hr : M.run es = some s) : I es s := by
  induction es using List.reverseRecOn generalizing s with
  | nil => exact Option.some.inj hr ▸ hinit
  | append_singleton es e ih =>
    obtain ⟨u, hu, hs⟩ := run_concat hr
    exact hstep es u e s hu (ih hu) hs

/-- The run went through a state with `P`, and `Q` has held from there on. -/
def Since (M : StepSystem σ ε) (Q P : σ → Prop) (es : List ε) : Prop :=
  ∃ fs u, fs <+: es ∧ M.run fs = some u ∧ P u ∧
    ∀ gs v, fs <+: gs → gs <+: es → M.run gs = some v → Q v

theorem Since.now {P Q : σ → Prop} {es : List ε} {s : σ} (hr : M.run es = some s) (hP : P s)
    (hQ : Q s) : M.Since Q P es := by
  refine ⟨es, s, List.prefix_rfl, hr, hP, fun gs v hle hge hv => ?_⟩
  obtain rfl := hle.eq_of_length_le hge.length_le
  exact Option.some.inj (hr.symm.trans hv) ▸ hQ

theorem Since.concat {P Q : σ → Prop} {es : List ε} {e : ε} {s : σ} (h : M.Since Q P es)
    (hr : M.run (es ++ [e]) = some s) (hQ : Q s) : M.Since Q P (es ++ [e]) := by
  obtain ⟨fs, u, hfs, hu, hP, hall⟩ := h
  refine ⟨fs, u, hfs.trans (List.prefix_append es [e]), hu, hP, fun gs v hle hge hv => ?_⟩
  rcases List.prefix_concat_iff.mp hge with rfl | hge
  · exact Option.some.inj (hr.symm.trans hv) ▸ hQ
  · exact hall gs v hle hge hv

/-- How many steps of a run from `s` meet `p`. -/
def count (M : StepSystem σ ε) (p : σ → ε → Bool) (s : σ) : List ε → ℕ
  | [] => 0
  | e :: es =>
    match M.step s e with
    | none => 0
    | some s' => (p s e).toNat + M.count p s' es

/-- The rule for counted steps. `I n` holds after `n` steps that meet `p`, and `rank` bounds the
steps that meet `q`, since it falls in each of them and rises in none. -/
theorem Reachable.counted {I : ℕ → σ → Prop} {rank : ℕ → σ → ℕ} {p q : σ → ε → Bool}
    {C : ε → Prop} (hstep : ∀ n s e s', M.Reachable s → I n s → C e → M.step s e = some s' →
      I (n + (p s e).toNat) s' ∧ (q s e).toNat + rank (n + (p s e).toNat) s' ≤ rank n s)
    {n : ℕ} {s s' : σ} {es : List ε} (h : M.Reachable s) (hI : I n s) (hC : ∀ e ∈ es, C e)
    (hr : M.runFrom s es = some s') :
    I (n + M.count p s es) s' ∧ M.count q s es + rank (n + M.count p s es) s' ≤ rank n s := by
  induction es generalizing n s with
  | nil =>
    obtain rfl := Option.some.inj hr
    exact ⟨hI, Nat.le_of_eq (Nat.zero_add _)⟩
  | cons e es ih =>
    obtain ⟨u, hu, hr'⟩ := Option.bind_eq_some_iff.mp hr
    obtain ⟨hIu, hrank⟩ := hstep n s e u h hI (hC e List.mem_cons_self) hu
    obtain ⟨hI', hrank'⟩ := ih (h.step hu) hIu (fun e he => hC e (List.mem_cons_of_mem _ he)) hr'
    simp only [count, hu]
    rw [← Nat.add_assoc]
    exact ⟨hI', by omega⟩

/-- The rule for amortized costs. While `P` holds, which no step brings back, `f` pays for the
steps that meet `q`, and a step that meets `p` adds at most `c` to it. -/
theorem Reachable.amortized {I P : σ → Prop} {f : σ → ℕ} {p q : σ → ε → Bool} {c : ℕ}
    (hkeep : ∀ s e s', M.Reachable s → I s → M.step s e = some s' → I s')
    (hstep : ∀ s e s', M.Reachable s → I s → M.step s e = some s' → P s' →
      P s ∧ (q s e).toNat + f s' ≤ f s + c * (p s e).toNat)
    {s s' : σ} {es : List ε} (h : M.Reachable s) (hI : I s) (hr : M.runFrom s es = some s')
    (hP : P s') : P s ∧ M.count q s es + f s' ≤ f s + c * M.count p s es := by
  induction es generalizing s with
  | nil =>
    obtain rfl := Option.some.inj hr
    exact ⟨hP, Nat.le_of_eq (Nat.zero_add _)⟩
  | cons e es ih =>
    obtain ⟨u, hu, hr'⟩ := Option.bind_eq_some_iff.mp hr
    obtain ⟨hPu, hrest⟩ := ih (h.step hu) (hkeep s e u h hI hu) hr'
    obtain ⟨hPs, hfirst⟩ := hstep s e u h hI hu hPu
    refine ⟨hPs, ?_⟩
    simp only [count, hu]
    rw [Nat.mul_add]
    omega

end StepSystem
