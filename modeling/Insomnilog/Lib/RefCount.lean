import Mathlib.Data.List.Perm.Subperm
import Mathlib.Logic.Function.Basic

/-! A heap of shared values, each with a strong count. A list of owners says who holds the
references; while it agrees with the counts, what is owned is alive. -/

/-- The allocated cells, each with its value and its strong count. -/
structure RefHeap (κ α : Type*) where
  cell : κ → Option (α × ℕ)

namespace RefHeap
variable {κ α : Type*} [DecidableEq κ] {h : RefHeap κ α} {k j : κ} {a : α} {owners : List κ}

def empty : RefHeap κ α := ⟨fun _ => none⟩

/-- What a reference to `k` points to, if it is alive. -/
def value (h : RefHeap κ α) (k : κ) : Option α := (h.cell k).map Prod.fst

/-- A new value, with one reference to it. -/
def alloc (h : RefHeap κ α) (k : κ) (a : α) : RefHeap κ α :=
  ⟨Function.update h.cell k (some (a, 1))⟩

def clone (h : RefHeap κ α) (k : κ) : RefHeap κ α :=
  ⟨Function.update h.cell k ((h.cell k).map fun c => (c.1, c.2 + 1))⟩

/-- The last reference frees the cell. -/
def drop (h : RefHeap κ α) (k : κ) : RefHeap κ α :=
  ⟨Function.update h.cell k
    ((h.cell k).bind fun c => if c.2 ≤ 1 then none else some (c.1, c.2 - 1))⟩

def dropAll (h : RefHeap κ α) (ks : List κ) : RefHeap κ α := ks.foldl drop h

/-- The counts are those of the references held by `owners`. -/
def Counts (h : RefHeap κ α) (owners : List κ) : Prop :=
  ∀ k, match h.cell k with
    | none => owners.count k = 0
    | some c => owners.count k = c.2 ∧ 0 < c.2

theorem Counts.perm {owners' : List κ} (hc : h.Counts owners) (hp : owners.Perm owners') :
    h.Counts owners' := by
  intro k
  have hk := hc k
  rw [hp.count_eq k] at hk
  exact hk

/-- What has an owner is alive. -/
theorem Counts.alive (hc : h.Counts owners) (hk : k ∈ owners) : ∃ a, h.value k = some a := by
  have hcount := hc k
  cases hcell : h.cell k with
  | none =>
    rw [hcell] at hcount
    exact absurd hk (List.count_eq_zero.mp hcount)
  | some c => exact ⟨c.1, by simp [value, hcell]⟩

theorem Counts.owned (hc : h.Counts owners) (ha : h.value k = some a) : k ∈ owners := by
  obtain ⟨c, hcell, -⟩ := Option.map_eq_some_iff.mp ha
  have hcount := hc k
  rw [hcell] at hcount
  exact List.count_pos_iff.mp (hcount.1 ▸ hcount.2)

theorem Counts.alloc (hc : h.Counts owners) (hk : h.cell k = none) (a : α) :
    (h.alloc k a).Counts (k :: owners) := by
  intro j
  have hj := hc j
  by_cases hjk : j = k
  · subst hjk
    rw [hk] at hj
    simp [RefHeap.alloc, hj]
  · simpa [RefHeap.alloc, hjk, List.count_cons, Ne.symm hjk] using hj

theorem Counts.clone (hc : h.Counts owners) (hk : k ∈ owners) :
    (h.clone k).Counts (k :: owners) := by
  intro j
  have hj := hc j
  by_cases hjk : j = k
  · subst hjk
    cases hcell : h.cell j with
    | none =>
      rw [hcell] at hj
      exact absurd hk (List.count_eq_zero.mp hj)
    | some c =>
      rw [hcell] at hj
      simp [RefHeap.clone, hcell, hj.1]
  · simpa [RefHeap.clone, hjk, List.count_cons, Ne.symm hjk] using hj

theorem Counts.drop (hc : h.Counts (k :: owners)) : (h.drop k).Counts owners := by
  intro j
  have hj := hc j
  by_cases hjk : j = k
  · subst hjk
    rw [List.count_cons_self] at hj
    cases hcell : h.cell j with
    | none =>
      rw [hcell] at hj
      cases hj
    | some c =>
      rw [hcell] at hj
      by_cases hlast : c.2 ≤ 1
      · simp only [RefHeap.drop, hcell, Function.update_self, Option.bind_some, hlast, if_true]
        omega
      · simp only [RefHeap.drop, hcell, Function.update_self, Option.bind_some, hlast, if_false]
        omega
  · simpa [RefHeap.drop, hjk, List.count_cons, Ne.symm hjk] using hj

theorem Counts.dropAll {ks : List κ} (hc : h.Counts (ks ++ owners)) :
    (h.dropAll ks).Counts owners := by
  induction ks generalizing h with
  | nil => exact hc
  | cons k ks ih => exact ih hc.drop

@[simp] theorem value_clone (h : RefHeap κ α) (k j : κ) : (h.clone k).value j = h.value j := by
  by_cases hjk : j = k
  · subst hjk
    cases hcell : h.cell j <;> simp [value, clone, hcell]
  · simp [value, clone, hjk]

theorem value_alloc_self (h : RefHeap κ α) (k : κ) (a : α) : (h.alloc k a).value k = some a := by
  simp [value, alloc]

/-- What is alive stays when a value is allocated. -/
theorem value_alloc (hk : h.cell k = none) {b : α} (hj : h.value j = some b) (a : α) :
    (h.alloc k a).value j = some b := by
  by_cases hjk : j = k
  · subst hjk
    simp [value, hk] at hj
  · simpa [value, alloc, hjk] using hj

theorem value_drop_of_ne (hjk : j ≠ k) : (h.drop k).value j = h.value j := by
  simp [value, drop, hjk]

/-- A drop leaves what still has an owner. -/
theorem Counts.value_drop (hc : h.Counts (k :: owners)) (hj : j ∈ owners) :
    (h.drop k).value j = h.value j := by
  by_cases hjk : j = k
  · subst hjk
    have hcount := hc j
    cases hcell : h.cell j with
    | none => simp [value, RefHeap.drop, hcell]
    | some c =>
      rw [hcell, List.count_cons_self] at hcount
      have hpos := List.count_pos_iff.mpr hj
      have hlast : ¬ c.2 ≤ 1 := by omega
      simp [value, RefHeap.drop, hcell, hlast]
  · exact value_drop_of_ne hjk

end RefHeap
