import Mathlib.Data.List.Basic

/-! Lists merged into one, each keeping its own order. -/

/-- The elements of `l` can be marked with where they come from, such that those from `i` are
`parts i`, in order. -/
def Merges {ι α : Type*} [DecidableEq ι] (parts : ι → List α) (l : List α) : Prop :=
  ∃ marked : List (ι × α), marked.map Prod.snd = l ∧
    ∀ i, (marked.filter fun p => p.1 = i).map Prod.snd = parts i

namespace Merges
variable {ι α β : Type*} [DecidableEq ι] {parts : ι → List α} {l : List α}

theorem mem_iff (h : Merges parts l) {a : α} : a ∈ l ↔ ∃ i, a ∈ parts i := by
  obtain ⟨marked, rfl, hparts⟩ := h
  constructor
  · intro ha
    obtain ⟨⟨i, b⟩, hp, rfl⟩ := List.mem_map.mp ha
    refine ⟨i, ?_⟩
    rw [← hparts i]
    exact List.mem_map_of_mem (List.mem_filter.mpr ⟨hp, by simp⟩)
  · rintro ⟨i, ha⟩
    rw [← hparts i] at ha
    exact (List.filter_sublist.map Prod.snd).subset ha

/-- A list is the merge of what it has under each key. -/
theorem of_key (key : α → ι) (l : List α) : Merges (fun i => l.filter fun a => key a = i) l := by
  refine ⟨l.map fun a => (key a, a), by simp [Function.comp_def], fun i => ?_⟩
  simp [List.filter_map, Function.comp_def]

/-- What is made of the elements is merged in the same way. -/
theorem flatMap (h : Merges parts l) (f : α → List β) :
    Merges (fun i => (parts i).flatMap f) (l.flatMap f) := by
  obtain ⟨marked, rfl, hparts⟩ := h
  refine ⟨marked.flatMap fun p => (f p.2).map fun b => (p.1, b), ?_, fun i => ?_⟩
  · simp [List.map_flatMap, List.flatMap_map, Function.comp_def]
  · show _ = (parts i).flatMap f
    rw [← hparts i, List.flatMap_map]
    clear hparts
    induction marked with
    | nil => rfl
    | cons p marked ih =>
      have hhead : (((f p.2).map fun b => (p.1, b)).filter fun q => q.1 = i) =
          if p.1 = i then (f p.2).map fun b => (p.1, b) else [] := by
        by_cases hp : p.1 = i <;> simp [hp]
      rw [List.flatMap_cons, List.filter_append, List.map_append, hhead, ih, List.filter_cons]
      by_cases hp : p.1 = i <;> simp [hp, Function.comp_def]

theorem filterMap (h : Merges parts l) (f : α → Option β) :
    Merges (fun i => (parts i).filterMap f) (l.filterMap f) := by
  simp only [List.filterMap_eq_flatMap_toList]
  exact h.flatMap fun a => (f a).toList

end Merges
