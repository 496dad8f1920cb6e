import Mathlib.Data.List.Nodup

/-! A map behind a reader-writer lock, whose writers insert under a key only when they have
found it absent and have kept the lock since. -/

/-- How a call on the map ended. -/
inductive MapCall (α : Type*) where
  | inserted (a : α)
  | existing (a : α)
  | got (found : Option α)
  deriving DecidableEq

/-- The map, the key of the writer that has found it absent and holds the lock, and the
calls that have ended, in the order of their accesses. -/
structure LockedMap (κ α : Type*) where
  entries : List (κ × α)
  writer : Option κ
  calls : List (κ × MapCall α)

namespace LockedMap
variable {κ α : Type*} [DecidableEq κ] {m : LockedMap κ α} {k : κ} {a : α}

def empty : LockedMap κ α := ⟨[], none, []⟩

def find (m : LockedMap κ α) (k : κ) : Option α := m.entries.lookup k

def values (m : LockedMap κ α) : List α := m.entries.map Prod.snd

/-- The lookup of a writer that has just got the lock. -/
def lookup (m : LockedMap κ α) (k : κ) : LockedMap κ α :=
  match m.find k with
  | some a => { m with calls := m.calls ++ [(k, .existing a)] }
  | none => { m with writer := some k }

/-- The insertion, which replaces what is stored under the key. The lock is released. -/
def insert (m : LockedMap κ α) (k : κ) (a : α) : LockedMap κ α :=
  ⟨(k, a) :: m.entries.filter (fun e => e.1 ≠ k), none, m.calls ++ [(k, .inserted a)]⟩

def get (m : LockedMap κ α) (k : κ) : LockedMap κ α :=
  { m with calls := m.calls ++ [(k, .got (m.find k))] }

theorem lookup_of_some (h : m.find k = some a) :
    m.lookup k = { m with calls := m.calls ++ [(k, .existing a)] } := by
  simp [lookup, h]

theorem lookup_of_none (h : m.find k = none) : m.lookup k = { m with writer := some k } := by
  simp [lookup, h]

@[simp] theorem values_lookup (m : LockedMap κ α) (k : κ) : (m.lookup k).values = m.values := by
  unfold lookup
  split <;> rfl

@[simp] theorem find_lookup (m : LockedMap κ α) (k j : κ) : (m.lookup k).find j = m.find j := by
  unfold lookup
  split <;> rfl

theorem mem_values (h : m.find k = some a) : a ∈ m.values := by
  obtain ⟨l₁, l₂, hl, -⟩ := List.lookup_eq_some_iff.mp h
  simp [values, hl]

/-- The ended calls for one key. -/
def callsOf (m : LockedMap κ α) (k : κ) : List (MapCall α) :=
  (m.calls.filter fun c => c.1 = k).map Prod.snd

theorem callsOf_concat (m : LockedMap κ α) (k j : κ) (c : MapCall α) :
    { m with calls := m.calls ++ [(k, c)] }.callsOf j =
      m.callsOf j ++ if k = j then [c] else [] := by
  by_cases hkj : k = j <;> simp [callsOf, List.filter_append, hkj]

/-- One call inserts. Those before it find nothing, and those after it find its value. -/
def OneWinner (calls : List (MapCall α)) : Option α → Prop
  | none => ∀ c ∈ calls, c = .got none
  | some a => ∃ before after, calls = before ++ .inserted a :: after ∧
      (∀ c ∈ before, c = .got none) ∧ ∀ c ∈ after, c = .existing a ∨ c = .got (some a)

theorem OneWinner.concat {calls : List (MapCall α)} {now : Option α} {c : MapCall α}
    (h : OneWinner calls now) (hc : c = .got now ∨ ∃ a, now = some a ∧ c = .existing a) :
    OneWinner (calls ++ [c]) now := by
  cases now with
  | none =>
    obtain rfl : c = .got none := by simpa using hc
    intro c' hc'
    rcases List.mem_append.mp hc' with hc' | hc'
    · exact h c' hc'
    · exact List.mem_singleton.mp hc'
  | some a =>
    obtain ⟨before, after, rfl, hbefore, hafter⟩ := h
    refine ⟨before, after ++ [c], by simp, hbefore, fun c' hc' => ?_⟩
    rcases List.mem_append.mp hc' with hc' | hc'
    · exact hafter c' hc'
    · obtain rfl := List.mem_singleton.mp hc'
      rcases hc with rfl | ⟨b, hb, rfl⟩
      · exact .inr rfl
      · exact .inl (by rw [Option.some.inj hb])

/-- What the lock protects. -/
structure Inv (m : LockedMap κ α) : Prop where
  writer : ∀ k, m.writer = some k → m.find k = none
  nodup : (m.entries.map Prod.fst).Nodup
  winner : ∀ k, OneWinner (m.callsOf k) (m.find k)

namespace Inv

theorem empty : Inv (empty : LockedMap κ α) := ⟨nofun, List.nodup_nil, fun _ => nofun⟩

theorem ends (h : Inv m) {c : MapCall α}
    (hc : c = .got (m.find k) ∨ ∃ a, m.find k = some a ∧ c = .existing a) :
    Inv { m with calls := m.calls ++ [(k, c)] } where
  writer := h.writer
  nodup := h.nodup
  winner j := by
    rw [callsOf_concat]
    split
    next hkj =>
      subst hkj
      exact (h.winner k).concat hc
    · rw [List.append_nil]
      exact h.winner j

theorem lookup (h : Inv m) (k : κ) : Inv (m.lookup k) := by
  unfold LockedMap.lookup
  split
  next a ha => exact h.ends (.inr ⟨a, ha, rfl⟩)
  next hnone =>
    refine { h with writer := fun j hj => ?_ }
    obtain rfl := Option.some.inj hj
    exact hnone

theorem get (h : Inv m) (k : κ) : Inv (m.get k) := h.ends (.inl rfl)

/-- Nothing is replaced. -/
theorem entries_insert (h : Inv m) (hk : m.writer = some k) (a : α) :
    (m.insert k a).entries = (k, a) :: m.entries := by
  apply congrArg (List.cons (k, a))
  apply List.filter_eq_self.mpr
  intro e he
  have hne : k ≠ e.1 := by simpa using List.lookup_eq_none_iff.mp (h.writer k hk) e he
  exact decide_eq_true hne.symm

theorem values_insert (h : Inv m) (hk : m.writer = some k) (a : α) :
    (m.insert k a).values = a :: m.values := by
  rw [values, h.entries_insert hk]
  rfl

theorem find_insert (h : Inv m) (hk : m.writer = some k) (a : α) (j : κ) :
    (m.insert k a).find j = if j = k then some a else m.find j := by
  rw [find, h.entries_insert hk, List.lookup_cons]
  split
  next hjk => simp [eq_of_beq hjk]
  next hjk =>
    have hne : j ≠ k := by simpa using hjk
    rw [if_neg hne]
    rfl

theorem insert (h : Inv m) (hk : m.writer = some k) (a : α) : Inv (m.insert k a) := by
  refine ⟨nofun, ?_, fun j => ?_⟩
  · rw [h.entries_insert hk, List.map_cons, List.nodup_cons]
    refine ⟨fun hmem => ?_, h.nodup⟩
    obtain ⟨e, he, hek⟩ := List.mem_map.mp hmem
    have hne := List.lookup_eq_none_iff.mp (h.writer k hk) e he
    simp [hek] at hne
  · have hcalls : (m.insert k a).callsOf j =
        m.callsOf j ++ if k = j then [.inserted a] else [] := callsOf_concat m k j _
    rw [hcalls, h.find_insert hk]
    by_cases hjk : j = k
    · subst hjk
      have hwinner := h.winner j
      rw [h.writer j hk] at hwinner
      simp only [if_true]
      exact ⟨m.callsOf j, [], rfl, hwinner, nofun⟩
    · rw [if_neg (Ne.symm hjk), if_neg hjk, List.append_nil]
      exact h.winner j

/-- An entry stays once it is there. -/
theorem find_mono (h : Inv m) (hk : m.writer = some k) (b : α) {j : κ} (hj : m.find j = some a) :
    (m.insert k b).find j = some a := by
  rw [h.find_insert hk, if_neg]
  · exact hj
  · rintro rfl
    rw [h.writer j hk] at hj
    cases hj

theorem find_of_mem (h : Inv m) (ha : a ∈ m.values) : ∃ k, m.find k = some a := by
  obtain ⟨e, he, rfl⟩ := List.mem_map.mp ha
  refine ⟨e.1, ?_⟩
  obtain ⟨l₁, l₂, hl⟩ := List.append_of_mem he
  have hnodup := h.nodup
  rw [hl, List.map_append, List.map_cons, List.nodup_append] at hnodup
  refine List.lookup_eq_some_iff.mpr ⟨l₁, l₂, hl, fun p hp => ?_⟩
  have hne := hnodup.2.2 p.1 (List.mem_map_of_mem hp) e.1 List.mem_cons_self
  simpa using hne.symm

end Inv
end LockedMap
