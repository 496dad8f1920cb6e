import Insomnilog.Frontend.LogCall
import Insomnilog.Queue.Spsc

/-! Log calls made while the arguments of another log call are evaluated, on one
producer thread. The thread-local producer is in a `RefCell`, borrowed for a moment to
register it and again around the whole queue write. -/
namespace Insomnilog.Frontend

/-- The log calls a piece of code makes, one after the other. -/
inductive Code where
  | done
  /-- A log call, with the calls made while its sizes are summed and those made by its
  closure, and then the rest of the code. -/
  | log (level loggerLevel : LogLevel) (totalSize : ℕ) (summing closure next : Code)
  deriving DecidableEq

namespace Code

def append : Code → Code → Code
  | done, c => c
  | log level loggerLevel totalSize summing closure next, c =>
      log level loggerLevel totalSize summing closure (next.append c)

/-- What one argument logs in its three evaluations, methods of a custom value included. -/
structure Argument where
  summing : Code
  sizing : Code
  storing : Code

/-- A log call with the given arguments, in the order the macro evaluates them. -/
def call (level loggerLevel : LogLevel) (totalSize : ℕ) (args : List Argument) : Code :=
  log level loggerLevel totalSize
    (args.foldr (fun a c => a.summing.append c) done)
    (args.foldr (fun a c => a.sizing.append (a.storing.append c)) done)
    done

end Code

/-- What the thread runs against: whether `create_producer` can build a queue, and
which of its reservations find room. -/
structure Env where
  queueCreated : Bool
  room : (attempt size : ℕ) → Bool

/-- A record in the queue. `alone` says that nothing was reserved between its own
reservation and its commit. -/
structure Committed where
  call : ℕ
  alone : Bool
  deriving DecidableEq

/-- The thread's producer slot, and what became of its calls, numbered in the order of
their level checks. The length of `dropped` is what they added to `dropped_records`. -/
structure Thread where
  registered : Bool
  borrowed : Bool
  calls : ℕ
  attempts : ℕ
  committed : List Committed
  dropped : List ℕ
  deriving DecidableEq

/-- A call of `borrow_mut`, which panics while the slot is borrowed. -/
def Thread.borrowMut (th : Thread) : Option Thread :=
  if th.borrowed then none else some { th with borrowed := true }

def ensureProducerRegistered (env : Env) (th : Thread) : Option Thread := do
  let th ← th.borrowMut
  if th.registered then some { th with borrowed := false }
  else if env.queueCreated then some { th with borrowed := false, registered := true }
  else none

def withProducer (env : Env) (f : Thread → Option Thread) (th : Thread) : Option Thread := do
  let th ← ensureProducerRegistered env th
  let th ← th.borrowMut
  let th ← f th
  some { th with borrowed := false }

/-- `log_write` for the call numbered `id`. A panic of the closure leaves the write
before its commit. -/
def logWrite (env : Env) (id totalSize : ℕ) (closure : Thread → Option Thread) :
    Thread → Option Thread :=
  withProducer env fun th =>
    let reserved := { th with attempts := th.attempts + 1 }
    if env.room th.attempts totalSize then do
      let th ← closure reserved
      some { th with committed := th.committed ++ [⟨id, th.attempts == reserved.attempts⟩] }
    else some { reserved with dropped := th.dropped ++ [id] }

/-- `none` is a panic. -/
def run (env : Env) : Code → Thread → Option Thread
  | .done, th => some th
  | .log level loggerLevel totalSize summing closure next, th =>
    if loggerLevel ≤ level then do
      let id := th.calls
      let th ← run env summing { th with calls := id + 1 }
      let th ← logWrite env id totalSize (fun th => run env closure th) th
      run env next th
    else run env next th

/-- Some call directly in the code passes its level check. -/
def Code.passes : Code → Bool
  | done => false
  | log level loggerLevel _ _ _ next => decide (loggerLevel ≤ level) || next.passes

/-- The writes the code comes to outside of closures, in order: their sizes, and what
their closures run. -/
def Code.writes : Code → List (ℕ × Code)
  | done => []
  | log level loggerLevel totalSize summing closure next =>
      if loggerLevel ≤ level then summing.writes ++ (totalSize, closure) :: next.writes
      else next.writes

/-- No write that finds room has a closure with a call that passes its level check. -/
def ClosuresQuiet (env : Env) (attempts : ℕ) (ws : List (ℕ × Code)) : Prop :=
  ∀ i size closure, ws[i]? = some (size, closure) → env.room (attempts + i) size = true →
    closure.passes = false

variable {env : Env} {c : Code} {th th' : Thread}

theorem ClosuresQuiet.append {n : ℕ} {ws ws' : List (ℕ × Code)} :
    ClosuresQuiet env n (ws ++ ws') ↔
      ClosuresQuiet env n ws ∧ ClosuresQuiet env (n + ws.length) ws' := by
  constructor
  · refine fun h => ⟨fun i size closure hi => h i size closure ?_, fun i size closure hi => ?_⟩
    · rw [List.getElem?_append_left (List.getElem?_eq_some_iff.mp hi).choose]
      exact hi
    · rw [Nat.add_assoc]
      apply h (ws.length + i) size closure
      rw [List.getElem?_append_right (Nat.le_add_right _ _), Nat.add_sub_cancel_left]
      exact hi
  · rintro ⟨h₁, h₂⟩ i size closure hi
    rcases Nat.lt_or_ge i ws.length with hlt | hge
    · rw [List.getElem?_append_left hlt] at hi
      exact h₁ i size closure hi
    · rw [List.getElem?_append_right hge] at hi
      have := h₂ (i - ws.length) size closure hi
      rwa [Nat.add_assoc, Nat.add_sub_cancel' hge] at this

theorem ClosuresQuiet.cons {n size : ℕ} {closure : Code} {ws : List (ℕ × Code)} :
    ClosuresQuiet env n ((size, closure) :: ws) ↔
      (env.room n size = true → closure.passes = false) ∧ ClosuresQuiet env (n + 1) ws := by
  rw [← List.singleton_append, ClosuresQuiet.append, List.length_singleton]
  refine and_congr_left fun _ => ⟨fun h => h 0 size closure rfl, fun h i size' closure' hi => ?_⟩
  obtain rfl : i = 0 := by
    have := (List.getElem?_eq_some_iff.mp hi).choose
    rw [List.length_singleton] at this
    omega
  cases hi
  exact h

section
variable {level loggerLevel : LogLevel} {totalSize : ℕ} {summing closure next : Code}

end

/-- The thread after a write: the record is committed when there is room. -/
def Thread.wrote (env : Env) (th : Thread) (id totalSize : ℕ) : Thread :=
  if env.room th.attempts totalSize then
    { th with
      registered := true
      attempts := th.attempts + 1
      committed := th.committed ++ [⟨id, true⟩] }
  else
    { th with
      registered := true
      attempts := th.attempts + 1
      dropped := th.dropped ++ [id] }

section
variable (env : Env) (th : Thread) (id totalSize : ℕ)

@[simp] theorem Thread.wrote_registered : (th.wrote env id totalSize).registered = true := by
  unfold wrote
  split <;> rfl

@[simp] theorem Thread.wrote_calls : (th.wrote env id totalSize).calls = th.calls := by
  unfold wrote
  split <;> rfl

@[simp] theorem Thread.wrote_attempts :
    (th.wrote env id totalSize).attempts = th.attempts + 1 := by
  unfold wrote
  split <;> rfl

end

/-- What the records of `n` calls have become: all calls numbered from `first` on are
committed, intact, or dropped, once each. -/
structure Fates (th th' : Thread) (first n : ℕ) (cs : List Committed) (ds : List ℕ) : Prop where
  committed : th'.committed = th.committed ++ cs
  dropped : th'.dropped = th.dropped ++ ds
  each : (cs.map Committed.call ++ ds).Perm (List.range' first n)
  alone : ∀ r ∈ cs, r.alone = true

/-- The state after `n` writes that completed. -/
structure Progress (th th' : Thread) (n : ℕ) : Prop where
  borrowed : th'.borrowed = false
  registered : th'.registered = true ↔ th.registered = true ∨ 0 < n
  calls : th'.calls = th.calls + n
  attempts : th'.attempts = th.attempts + n
  fates : ∃ cs ds, Fates th th' th.calls n cs ds

theorem Fates.wrote (env : Env) (th : Thread) (id totalSize : ℕ) :
    ∃ cs ds, Fates th (th.wrote env id totalSize) id 1 cs ds := by
  unfold Thread.wrote
  split
  · exact ⟨[⟨id, true⟩], [], rfl, by simp, by simp, by simp⟩
  · exact ⟨[], [id], by simp, rfl, by simp, by simp⟩

/-- A call with those of its arguments before it and the rest of the code after it. -/
theorem Fates.join {a b d e : Thread} {id n m : ℕ} {cs₁ cs₂ cs₃ : List Committed}
    {ds₁ ds₂ ds₃ : List ℕ} (h₁ : Fates a b (id + 1) n cs₁ ds₁) (h₂ : Fates b d id 1 cs₂ ds₂)
    (h₃ : Fates d e (id + 1 + n) m cs₃ ds₃) :
    Fates a e id (n + 1 + m) (cs₁ ++ cs₂ ++ cs₃) (ds₁ ++ ds₂ ++ ds₃) where
  committed := by rw [h₃.committed, h₂.committed, h₁.committed]; simp only [List.append_assoc]
  dropped := by rw [h₃.dropped, h₂.dropped, h₁.dropped]; simp only [List.append_assoc]
  each := by
    have hrange : List.range' id (n + 1 + m) =
        id :: (List.range' (id + 1) n ++ List.range' (id + 1 + n) m) := by
      rw [List.range'_append_1, show n + 1 + m = n + m + 1 by omega, List.range'_succ]
    rw [hrange, List.perm_iff_count]
    intro x
    have c₁ := h₁.each.count_eq x
    have c₂ := h₂.each.count_eq x
    have c₃ := h₃.each.count_eq x
    simp only [List.map_append, List.count_append, List.range'_one, List.count_cons,
      List.count_nil] at c₁ c₂ c₃ ⊢
    omega
  alone := by
    intro r hr
    rcases List.mem_append.mp hr with hr | hr
    · rcases List.mem_append.mp hr with hr | hr
      · exact h₁.alone r hr
      · exact h₂.alone r hr
    · exact h₃.alone r hr

theorem Progress.refl (h : th.borrowed = false) : Progress th th 0 :=
  ⟨h, by simp, rfl, rfl, [], [], by simp, by simp, by simp, by simp⟩

/-- A call with those of its arguments before it and the rest of the code after it. -/
theorem Progress.join {th₁ th₂ : Thread} {n m totalSize : ℕ}
    (p₁ : Progress { th with calls := th.calls + 1 } th₁ n)
    (p₂ : Progress (th₁.wrote env th.calls totalSize) th₂ m) : Progress th th₂ (n + 1 + m) := by
  obtain ⟨cs₁, ds₁, f₁⟩ := p₁.fates
  obtain ⟨cs₂, ds₂, f₂⟩ := Fates.wrote env th₁ th.calls totalSize
  obtain ⟨cs₃, ds₃, f₃⟩ := p₂.fates
  have hcalls := p₁.calls
  have hcalls' := p₂.calls
  have hattempts := p₁.attempts
  have hattempts' := p₂.attempts
  simp only [Thread.wrote_calls, Thread.wrote_attempts] at hcalls' hattempts'
  rw [Thread.wrote_calls, hcalls] at f₃
  have f₁' : Fates th th₁ (th.calls + 1) n cs₁ ds₁ :=
    ⟨f₁.committed, f₁.dropped, f₁.each, f₁.alone⟩
  exact
    { borrowed := p₂.borrowed
      registered := iff_of_true (p₂.registered.mpr (.inl (Thread.wrote_registered ..)))
        (.inr (by omega))
      calls := by rw [hcalls', hcalls]; dsimp only; omega
      attempts := by rw [hattempts', hattempts]; dsimp only; omega
      fates := ⟨_, _, f₁'.join f₂ f₃⟩ }

/-- A thread that has not logged yet. -/
def Thread.new : Thread := ⟨false, false, 0, 0, [], []⟩

end Insomnilog.Frontend
