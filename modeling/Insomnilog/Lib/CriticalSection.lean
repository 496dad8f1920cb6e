import Mathlib.Logic.Function.Basic
import Insomnilog.Lib.Mutex
import Insomnilog.Lib.StepSystem

/-! Threads whose calls take turns under one mutex. Between `lock` and the drop of its guard a call
takes steps, as small as one likes; the other threads go on meanwhile, but have to wait for the
mutex. -/

/-- What a call does while it holds the mutex. What is left of it may depend on the data that the
step has made. -/
inductive Critical (α ε β : Type*) where
  | done (result : Outcome ε β)
  | step (f : α → α) (rest : α → Critical α ε β)

namespace Critical
variable {α ε β : Type*} {R : α → α → Prop}

/-- All steps at once. -/
def run : Critical α ε β → α → Outcome ε β × α
  | done result, a => (result, a)
  | step f rest, a => (rest (f a)).run (f a)

/-- Every step relates the data before and after it. -/
def Respects (R : α → α → Prop) : Critical α ε β → Prop
  | done _ => True
  | step f rest => ∀ a, R a (f a) ∧ (rest a).Respects R

theorem Respects.run (hrefl : ∀ a, R a a) (htrans : ∀ a b c, R a b → R b c → R a c)
    {c : Critical α ε β} (h : c.Respects R) (a : α) : R a (c.run a).2 := by
  induction c generalizing a with
  | done result => exact hrefl a
  | step f rest ih => exact htrans a (f a) _ (h a).1 (ih (f a) (h (f a)).2 (f a))

end Critical

/-- The mutex, which thread has it with what is left of its call, and the calls that the threads
have still to make. `order` and `results` record history: the calls in the order in which they
took the mutex, and what those returned that have ended. -/
structure Contended (ι κ α ε β : Type*) where
  mutex : Mutex α
  holder : Option (ι × Critical α ε β)
  todo : ι → List κ
  order : List (ι × κ)
  results : List (Outcome ε β)

/-- Steps and unlocks are those of the thread that has the mutex. -/
inductive LockEvent (ι : Type*) where
  | lock (i : ι)
  | step
  | unlock

namespace Contended
variable {ι κ α ε β : Type*} [DecidableEq ι] {body : κ → Critical α ε β} {m : Mutex α}
  {todo : ι → List κ} {R : α → α → Prop} {s s' : Contended ι κ α ε β}

/-- A poisoned mutex is taken like any other. -/
def next (body : κ → Critical α ε β) (s : Contended ι κ α ε β) :
    LockEvent ι → Option (Contended ι κ α ε β)
  | .lock i =>
    match s.holder, s.todo i with
    | none, call :: calls => some { s with
        holder := some (i, body call)
        todo := Function.update s.todo i calls
        order := s.order ++ [(i, call)] }
    | _, _ => none
  | .step =>
    match s.holder with
    | some (i, .step f rest) =>
        let data := f s.mutex.recover
        some { s with mutex := ⟨data, s.mutex.poisoned⟩, holder := some (i, rest data) }
    | _ => none
  | .unlock =>
    match s.holder with
    | some (_, .done result) => some { s with
        mutex := s.mutex.release s.mutex.recover result
        holder := none
        results := s.results ++ [result] }
    | _ => none

def system (body : κ → Critical α ε β) (m : Mutex α) (todo : ι → List κ) :
    StepSystem (Contended ι κ α ε β) (LockEvent ι) where
  init := ⟨m, none, todo, [], []⟩
  step := next body

/-- One call after the other, each at once: what they return, and the mutex after them. -/
def oneByOne (body : κ → Critical α ε β) (m : Mutex α) : List κ → List (Outcome ε β) × Mutex α
  | [] => ([], m)
  | call :: calls =>
      let (result, m) := m.hold (body call).run
      let (results, m) := oneByOne body m calls
      (result :: results, m)

theorem oneByOne_concat (m : Mutex α) (calls : List κ) (call : κ) :
    oneByOne body m (calls ++ [call]) =
      ((oneByOne body m calls).1 ++ [((oneByOne body m calls).2.hold (body call).run).1],
        ((oneByOne body m calls).2.hold (body call).run).2) := by
  induction calls generalizing m with
  | nil => rfl
  | cons first calls ih =>
    simp only [List.cons_append, oneByOne, ih]

/-- The threads have gone through their calls one by one, in the order in which they took the
mutex. The call that holds it is on its way from what the others have left to what it will leave
itself. -/
structure Serial (body : κ → Critical α ε β) (m : Mutex α) (todo : ι → List κ)
    (R : α → α → Prop) (s : Contended ι κ α ε β) : Prop where
  programs : ∀ i, (s.order.filter fun p => p.1 = i).map Prod.snd ++ s.todo i = todo i
  free : s.holder = none → (s.results, s.mutex) = oneByOne body m (s.order.map Prod.snd)
  held : ∀ i c, s.holder = some (i, c) → ∃ before call, s.order = before ++ [(i, call)] ∧
    s.results = (oneByOne body m (before.map Prod.snd)).1 ∧
    s.mutex.poisoned = (oneByOne body m (before.map Prod.snd)).2.poisoned ∧
    c.run s.mutex.data = (body call).run (oneByOne body m (before.map Prod.snd)).2.data ∧
    R (oneByOne body m (before.map Prod.snd)).2.data s.mutex.data ∧ c.Respects R

theorem Serial.next (hrefl : ∀ a, R a a) (htrans : ∀ a b c, R a b → R b c → R a c)
    (hbody : ∀ call, (body call).Respects R) (h : Serial body m todo R s) {e : LockEvent ι}
    (he : next body s e = some s') : Serial body m todo R s' := by
  cases e with
  | lock i =>
    rw [Contended.next.eq_def] at he
    dsimp only at he
    split at he
    next call calls hfree htodo =>
      cases he
      have hlast := h.free hfree
      refine ⟨fun j => ?_, fun hnone => (nomatch hnone), fun j c hj => ?_⟩
      · rw [← h.programs j, List.filter_append, List.map_append, List.append_assoc]
        congr 1
        by_cases hij : i = j
        · subst hij
          simp [htodo]
        · simp [hij, Function.update_of_ne (Ne.symm hij)]
      · cases hj
        refine ⟨s.order, call, rfl, ?_, ?_, ?_, ?_, hbody call⟩
        all_goals rw [← hlast]
        exact hrefl _
    next => cases he
  | step =>
    rw [Contended.next.eq_def] at he
    dsimp only at he
    split at he
    next i f rest hheld =>
      cases he
      obtain ⟨before, call, horder, hresults, hpoisoned, hrun, hR, hrespects⟩ := h.held _ _ hheld
      refine ⟨h.programs, fun hnone => (nomatch hnone), fun j c hj => ?_⟩
      cases hj
      have hdata : s.mutex.recover = s.mutex.data := s.mutex.recover_eq
      refine ⟨before, call, horder, hresults, hpoisoned, ?_, ?_, ?_⟩
      · rw [← hrun, hdata]
        rfl
      · rw [hdata]
        exact htrans _ _ _ hR (hrespects _).1
      · exact (hrespects _).2
    next => cases he
  | unlock =>
    rw [Contended.next.eq_def] at he
    dsimp only at he
    split at he
    next i result hheld =>
      cases he
      obtain ⟨before, call, horder, hresults, hpoisoned, hrun, -, -⟩ := h.held _ _ hheld
      refine ⟨h.programs, fun _ => ?_, fun j c hj => nomatch hj⟩
      dsimp only
      rw [horder, List.map_append, List.map_cons, List.map_nil, oneByOne_concat, ← hresults,
        Mutex.recover_eq]
      have hpair : (body call).run (oneByOne body m (before.map Prod.snd)).2.recover =
          (result, s.mutex.data) := by
        rw [Mutex.recover_eq, ← hrun]
        rfl
      unfold Mutex.hold
      rw [hpair]
      unfold Mutex.release
      rw [hpoisoned]
    next => cases he

theorem serial (hrefl : ∀ a, R a a) (htrans : ∀ a b c, R a b → R b c → R a c)
    (hbody : ∀ call, (body call).Respects R) (h : (system body m todo).Reachable s) :
    Serial body m todo R s := by
  refine h.invariant (I := Serial body m todo R) ?_
    fun _ _ _ _ h he => h.next hrefl htrans hbody he
  exact ⟨fun i => rfl, fun _ => rfl, fun i c hheld => nomatch hheld⟩

/-- Nobody waits for ever behind a thread that cannot go on. -/
theorem progress (body : κ → Critical α ε β) (h : (∃ i, s.todo i ≠ []) ∨ s.holder.isSome) :
    ∃ e s', next body s e = some s' := by
  cases hholder : s.holder with
  | none =>
    rw [hholder] at h
    obtain ⟨i, hi⟩ := h.resolve_right Bool.false_ne_true
    obtain ⟨call, calls, htodo⟩ := List.exists_cons_of_ne_nil hi
    have hlock : (next body s (.lock i)).isSome := by
      simp [next, hholder, htodo]
    exact ⟨_, Option.isSome_iff_exists.mp hlock⟩
  | some p =>
    obtain ⟨i, c⟩ := p
    cases c with
    | done result =>
      have hunlock : (next body s .unlock).isSome := by
        simp [next, hholder]
      exact ⟨_, Option.isSome_iff_exists.mp hunlock⟩
    | step f rest =>
      have hstep : (next body s .step).isSome := by
        simp [next, hholder]
      exact ⟨_, Option.isSome_iff_exists.mp hstep⟩

/-- Calls that have taken the mutex come before those that take it later, and what calls have
returned stays. -/
theorem order_prefix {es : List (LockEvent ι)} (h : (system body m todo).Reachable s)
    (hr : (system body m todo).runFrom s es = some s') :
    s.order <+: s'.order ∧ s.results <+: s'.results := by
  refine h.runFrom_related
    (R := fun u u' : Contended ι κ α ε β => u.order <+: u'.order ∧ u.results <+: u'.results)
    (fun u => ⟨List.prefix_rfl, List.prefix_rfl⟩)
    (fun u v w huv hvw => ⟨huv.1.trans hvw.1, huv.2.trans hvw.2⟩)
    (fun u e u' _ he => ?_) hr
  cases e with
  | lock i =>
    have he' : next body u (.lock i) = some u' := he
    rw [Contended.next.eq_def] at he'
    dsimp only at he'
    split at he' <;> cases he'
    exact ⟨List.prefix_append _ _, List.prefix_rfl⟩
  | step =>
    have he' : next body u .step = some u' := he
    rw [Contended.next.eq_def] at he'
    dsimp only at he'
    split at he' <;> cases he'
    exact ⟨List.prefix_rfl, List.prefix_rfl⟩
  | unlock =>
    have he' : next body u .unlock = some u' := he
    rw [Contended.next.eq_def] at he'
    dsimp only at he'
    split at he' <;> cases he'
    exact ⟨List.prefix_rfl, List.prefix_append _ _⟩

end Contended
