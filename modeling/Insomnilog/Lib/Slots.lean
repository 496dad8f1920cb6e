import Mathlib.Order.Basic
import Mathlib.Tactic

/-! Numbered slots, each empty or holding one item, and the shift that makes room in
front of the items of a range. -/
namespace Slots
variable {α : Type*} {s : ℕ → Option α} {m n : ℕ} {a b : α}

/-- Some slot holds `a`. -/
def Holds (s : ℕ → Option α) (a : α) : Prop := ∃ i, s i = some a

/-- The items decrease strictly as the index grows. -/
def Decreasing [LT α] (s : ℕ → Option α) : Prop :=
  ∀ i j a b, i < j → s i = some a → s j = some b → b < a

/-- Move the items of the slots `m, …, n - 1` up by one. Slot `m` becomes empty, and what
slot `n` held is gone. -/
def shift (m n : ℕ) (s : ℕ → Option α) (i : ℕ) : Option α :=
  if i = m then none else if m < i ∧ i ≤ n then s (i - 1) else s i

/-- Put an item into slot 0. -/
def put (a : α) (s : ℕ → Option α) (i : ℕ) : Option α := if i = 0 then some a else s i

/-- An item after a shift comes from the slot before it or has not moved. -/
theorem shift_eq_some {i : ℕ} (h : shift m n s i = some a) :
    i ≠ m ∧ (m < i ∧ i ≤ n ∧ s (i - 1) = some a ∨ (i < m ∨ n < i) ∧ s i = some a) := by
  unfold shift at h
  split at h
  · cases h
  · split at h
    · exact ⟨by assumption, .inl ⟨by omega, by omega, h⟩⟩
    · exact ⟨by assumption, .inr ⟨by omega, h⟩⟩

/-- Every item but the one in the last slot of the range survives a shift. -/
theorem shift_holds (hmn : m ≤ n) {i : ℕ} (h : s i = some a) (hi : i ≠ n) :
    Holds (shift m n s) a := by
  by_cases hr : m ≤ i ∧ i < n
  · use i + 1
    rw [shift, if_neg (by omega), if_pos (by omega)]
    exact h
  · use i
    rw [shift, if_neg (by omega), if_neg (by omega)]
    exact h

/-- A shift brings in no new item. -/
theorem Holds.of_shift (h : Holds (shift m n s) a) : Holds s a := by
  obtain ⟨i, hi⟩ := h
  rcases (shift_eq_some hi).2 with ⟨-, -, hi⟩ | ⟨-, hi⟩
  · exact ⟨i - 1, hi⟩
  · exact ⟨i, hi⟩

/-- What the last slot of the range held is gone, unless it was elsewhere too. -/
theorem Holds.of_shift_of_ne (hmn : m ≤ n) (h : Holds (shift m n s) a) :
    ∃ i, i ≠ n ∧ s i = some a := by
  obtain ⟨i, hi⟩ := h
  obtain ⟨hne, ⟨hlo, hhi, hi⟩ | ⟨hout, hi⟩⟩ := shift_eq_some hi
  · exact ⟨i - 1, by omega, hi⟩
  · exact ⟨i, by omega, hi⟩

/-- A shift does not depend on the slot whose item it drops. -/
theorem shift_congr {s' : ℕ → Option α} (hmn : m ≤ n) (h : ∀ i, i ≠ n → s i = s' i) :
    shift m n s = shift m n s' := by
  funext i
  simp only [shift]
  split
  · rfl
  · split
    · exact h (i - 1) (by omega)
    · exact h i (by omega)

/-- Moving one item up and then shifting below it is one longer shift. -/
theorem shift_shift (hmn : m ≤ n) : shift m n (shift n (n + 1) s) = shift m (n + 1) s := by
  funext i
  simp only [shift]
  grind

/-- With its only slot empty, a shift changes nothing. -/
theorem shift_self (h : s n = none) : shift n n s = s := by
  funext i
  by_cases hi : i = n
  · subst i
    rw [h, shift, if_pos rfl]
  · rw [shift, if_neg hi, if_neg (by omega)]

theorem put_of_ne {i : ℕ} (h : i ≠ 0) : put a s i = s i := if_neg h

theorem Holds.put (h : Holds s b) (h0 : s 0 = none) : Holds (put a s) b := by
  obtain ⟨i, hi⟩ := h
  use i
  rw [put_of_ne]
  · exact hi
  · rintro rfl
    rw [h0] at hi
    cases hi

variable [Preorder α]

/-- In decreasing slots no item is held twice. -/
theorem Decreasing.injective (h : Decreasing s) {i j : ℕ} (hi : s i = some a)
    (hj : s j = some a) : i = j := by
  rcases Nat.lt_trichotomy i j with hlt | heq | hgt
  · exact absurd (h i j a a hlt hi hj) (lt_irrefl a)
  · exact heq
  · exact absurd (h j i a a hgt hj hi) (lt_irrefl a)

theorem Decreasing.shift (h : Decreasing s) : Decreasing (shift m n s) := by
  intro i j a b hij hi hj
  obtain ⟨-, ⟨_, _, hi⟩ | ⟨_, hi⟩⟩ := shift_eq_some hi
  all_goals obtain ⟨-, ⟨_, _, hj⟩ | ⟨_, hj⟩⟩ := shift_eq_some hj
  all_goals exact h _ _ a b (by omega) hi hj

/-- A new greatest item goes in front. -/
theorem Decreasing.put (h : Decreasing s) (hnew : ∀ i b, s i = some b → b < a) :
    Decreasing (put a s) := by
  intro i j b c hij hi hj
  rw [put_of_ne (by omega)] at hj
  by_cases hz : i = 0
  · subst i
    obtain rfl := Option.some.inj hi
    exact hnew j c hj
  · rw [put_of_ne hz] at hi
    exact h i j b c hij hi hj

end Slots
