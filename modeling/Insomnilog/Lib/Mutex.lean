import Insomnilog.Lib.Outcome

/-! A mutex that remembers a panic of its holder, as the calls find it that hold it one after
another. -/

structure Mutex (α : Type*) where
  data : α
  poisoned : Bool

structure PoisonError (α : Type*) where
  guarded : α

/-- `PoisonError::into_inner`. -/
def PoisonError.intoInner {α : Type*} (e : PoisonError α) : α := e.guarded

namespace Mutex
variable {α β ε : Type*}

def new (data : α) : Mutex α := ⟨data, false⟩

def lock (m : Mutex α) : Except (PoisonError α) α :=
  if m.poisoned then .error ⟨m.data⟩ else .ok m.data

/-- `lock().unwrap_or_else(PoisonError::into_inner)`. -/
def recover (m : Mutex α) : α :=
  match m.lock with
  | .ok data => data
  | .error e => e.intoInner

/-- The guard is dropped. In a panic that poisons the mutex. -/
def release (m : Mutex α) (data : α) : Outcome ε β → Mutex α
  | .panic => ⟨data, true⟩
  | _ => ⟨data, m.poisoned⟩

/-- A critical section that takes a poisoned mutex like any other. -/
def hold (m : Mutex α) (critical : α → Outcome ε β × α) : Outcome ε β × Mutex α :=
  let (result, data) := critical m.recover
  (result, m.release data result)

/-- Another view of the data. -/
def map (f : α → β) (m : Mutex α) : Mutex β := ⟨f m.data, m.poisoned⟩

@[simp] theorem recover_eq (m : Mutex α) : m.recover = m.data := by
  unfold recover lock
  by_cases h : m.poisoned = true
  · rw [if_pos h]
    rfl
  · rw [if_neg h]

@[simp] theorem release_data (m : Mutex α) (data : α) (result : Outcome ε β) :
    (m.release data result).data = data := by
  cases result <;> rfl

theorem release_map {γ : Type*} (m : Mutex α) (data : α) (f : β → γ) (result : Outcome ε β) :
    m.release data (result.map f) = m.release data result := by
  cases result <;> rfl

/-- Whether the mutex is poisoned makes no difference to the section. -/
theorem hold_fst (m : Mutex α) (critical : α → Outcome ε β × α) :
    (m.hold critical).1 = (critical m.data).1 := by
  rw [hold, recover_eq]

theorem hold_data (m : Mutex α) (critical : α → Outcome ε β × α) :
    (m.hold critical).2.data = (critical m.data).2 := by
  rw [hold, recover_eq]
  exact release_data m _ _

/-- A section that does in another view what `critical` does. -/
theorem hold_map {γ : Type*} {f : α → γ} {m : Mutex α} {critical : α → Outcome ε β × α}
    {critical' : γ → Outcome ε β × γ}
    (h : critical' (f m.data) = ((critical m.data).1, f (critical m.data).2)) :
    (m.map f).hold critical' = ((m.hold critical).1, (m.hold critical).2.map f) := by
  have hheld : (m.map f).hold critical' = ((critical m.data).1,
      (m.map f).release (f (critical m.data).2) (critical m.data).1) := by
    unfold hold
    rw [recover_eq, show critical' (m.map f).data = _ from h]
  rw [hheld, hold, recover_eq]
  dsimp only
  cases (critical m.data).1 <;> rfl

end Mutex
