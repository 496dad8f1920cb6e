import Mathlib.Data.List.Infix

/-! Lines of a stream that is put together from fragments, of which some may be torn. -/
namespace Lines
variable {α β : Type*} {x : α} {l l' : List α} {f : β → List α}

/-- A stream that ends here can go on with a new line. The element `x` ends lines. -/
def AtLineStart (x : α) (l : List α) : Prop := l = [] ∨ l.getLast? = some x

/-- The stream is `before` up to the line, and the line stands on its own. -/
structure OwnLine (x : α) (stream before line : List α) : Prop where
  starts : AtLineStart x before
  inPlace : before ++ line ++ [x] <+: stream

theorem getLast?_append_ne_nil (h : l' ≠ []) : (l ++ l').getLast? = l'.getLast? := by
  rw [List.getLast?_append, List.getLast?_eq_some_getLast h]
  rfl

/-- An element at the end of a concatenation ends one of the fragments. -/
theorem exists_ends {fragments : List β} (h : (fragments.flatMap f).getLast? = some x) :
    ∃ b ∈ fragments, (f b).getLast? = some x := by
  induction fragments with
  | nil => cases h
  | cons b fragments ih =>
    rw [List.flatMap_cons] at h
    by_cases hnil : fragments.flatMap f = []
    · rw [hnil, List.append_nil] at h
      exact ⟨b, List.mem_cons_self, h⟩
    · rw [getLast?_append_ne_nil hnil] at h
      obtain ⟨c, hc, hends⟩ := ih h
      exact ⟨c, List.mem_cons_of_mem b hc, hends⟩

/-- The first fragment is mended by a later one that ends a line. -/
theorem atLineStart_cons {b : β} {fragments : List β} :
    AtLineStart x ((b :: fragments).flatMap f) ↔
      (¬ AtLineStart x (f b) → ∃ c ∈ fragments, (f c).getLast? = some x) ∧
        AtLineStart x (fragments.flatMap f) := by
  rw [List.flatMap_cons]
  by_cases hnil : fragments.flatMap f = []
  · rw [hnil, List.append_nil]
    have hno : ¬ ∃ c ∈ fragments, (f c).getLast? = some x := by
      rintro ⟨c, hc, hends⟩
      rw [List.flatMap_eq_nil_iff.mp hnil c hc] at hends
      cases hends
    constructor
    · intro h
      exact ⟨fun hnot => absurd h hnot, .inl rfl⟩
    · rintro ⟨h, -⟩
      by_contra hnot
      exact hno (h hnot)
  · constructor
    · intro h
      have hends : (fragments.flatMap f).getLast? = some x := by
        rcases h with h | h
        · exact absurd (List.append_eq_nil_iff.mp h).2 hnil
        · rwa [getLast?_append_ne_nil hnil] at h
      exact ⟨fun _ => exists_ends hends, .inr hends⟩
    · rintro ⟨-, h⟩
      right
      rw [getLast?_append_ne_nil hnil]
      exact h.resolve_left hnil

/-- A stream of fragments is at the start of a line if every torn fragment has a later one
that ends a line, and only then. -/
theorem atLineStart_flatMap {fragments : List β} : AtLineStart x (fragments.flatMap f) ↔
    ∀ before b after, fragments = before ++ b :: after → ¬ AtLineStart x (f b) →
      ∃ c ∈ after, (f c).getLast? = some x := by
  induction fragments with
  | nil =>
    constructor
    · intro _ before b after h
      cases (List.append_eq_nil_iff.mp h.symm).2
    · intro _
      exact .inl rfl
  | cons b fragments ih =>
    rw [atLineStart_cons, ih]
    constructor
    · rintro ⟨hfirst, hrest⟩ before c after h
      cases before with
      | nil =>
        obtain ⟨rfl, rfl⟩ := List.cons.inj h
        exact hfirst
      | cons d before =>
        obtain ⟨rfl, htail⟩ := List.cons.inj h
        exact hrest before c after htail
    · intro h
      refine ⟨h [] b fragments rfl, fun before c after hsplit => ?_⟩
      exact h (b :: before) c after (by rw [hsplit]; rfl)

end Lines
