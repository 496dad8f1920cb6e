import Mathlib.Data.List.Infix

/-! Cutting a list at every occurrence of a separator of two different elements. Since
occurrences cannot overlap, there is exactly one way to do it. -/
namespace Pieces
variable {α : Type*} {x y c : α} {l p : List α} {ps : List (List α)}

/-- The pieces of `l` between the separators `[x, y]` are `p` and then `ps`. -/
structure Cut (x y : α) (l p : List α) (ps : List (List α)) : Prop where
  joined : l = p ++ ps.flatMap fun q => x :: y :: q
  free : ∀ q ∈ p :: ps, ¬ [x, y] <:+: q

namespace Cut

theorem nil : Cut x y [] [] [] := by
  refine ⟨rfl, fun q hq => ?_⟩
  rw [List.mem_singleton.mp hq]
  simp

theorem separator (h : Cut x y l p ps) : Cut x y (x :: y :: l) [] (p :: ps) := by
  refine ⟨?_, fun q hq => ?_⟩
  · rw [h.joined]
    rfl
  · rcases List.mem_cons.mp hq with rfl | hq
    · simp
    · exact h.free q hq

/-- An element at which no separator starts belongs to the first piece. -/
theorem cons (h : Cut x y l p ps) (hc : c = x → l.head? ≠ some y) :
    Cut x y (c :: l) (c :: p) ps := by
  refine ⟨by rw [h.joined]; rfl, fun q hq => ?_⟩
  rcases List.mem_cons.mp hq with rfl | hq
  · intro hin
    rcases List.infix_cons_iff.mp hin with hpre | hin
    · obtain ⟨rfl, rest, rfl⟩ := List.cons_prefix_cons.mp hpre
      apply hc rfl
      rw [h.joined]
      rfl
    · exact h.free p List.mem_cons_self hin
  · exact h.free q (List.mem_cons_of_mem _ hq)

theorem of_separator (hne : x ≠ y) (h : Cut x y (x :: y :: l) p ps) :
    ∃ q qs, p = [] ∧ ps = q :: qs ∧ Cut x y l q qs := by
  have hjoined := h.joined
  cases p with
  | nil =>
    cases ps with
    | nil => cases hjoined
    | cons q qs =>
      have htail : l = q ++ qs.flatMap fun q => x :: y :: q := by
        simpa using hjoined
      exact ⟨q, qs, rfl, rfl, htail, fun r hr => h.free r (List.mem_cons_of_mem _ hr)⟩
  | cons c p =>
    obtain ⟨rfl, htail⟩ := List.cons.inj hjoined
    cases p with
    | nil =>
      cases ps with
      | nil => cases htail
      | cons q qs => exact absurd (List.cons.inj htail).1.symm hne
    | cons d p =>
      obtain ⟨rfl, -⟩ := List.cons.inj htail
      exact absurd ⟨[], p, rfl⟩ (h.free _ List.mem_cons_self)

theorem of_cons (hc : c = x → l.head? ≠ some y) (h : Cut x y (c :: l) p ps) :
    ∃ q, p = c :: q ∧ Cut x y l q ps := by
  have hjoined := h.joined
  cases p with
  | nil =>
    cases ps with
    | nil => cases hjoined
    | cons q qs =>
      obtain ⟨rfl, htail⟩ := List.cons.inj hjoined
      exact absurd (by rw [htail]; rfl) (hc rfl)
  | cons d q =>
    obtain ⟨rfl, htail⟩ := List.cons.inj hjoined
    refine ⟨q, rfl, htail, fun r hr => ?_⟩
    rcases List.mem_cons.mp hr with rfl | hr
    · intro hin
      exact h.free _ List.mem_cons_self (hin.trans (List.suffix_cons c r).isInfix)
    · exact h.free r (List.mem_cons_of_mem _ hr)

theorem of_nil (h : Cut x y [] p ps) : p = [] ∧ ps = [] := by
  obtain ⟨hp, hps⟩ := List.append_eq_nil_iff.mp h.joined.symm
  refine ⟨hp, ?_⟩
  cases ps with
  | nil => rfl
  | cons q qs => cases hps

/-- There is only one way to cut a list. -/
theorem unique (hne : x ≠ y) : ∀ {l p p' : List α} {ps ps' : List (List α)},
    Cut x y l p ps → Cut x y l p' ps' → p' = p ∧ ps' = ps
  | [], _, _, _, _, h, h' => by
    obtain ⟨rfl, rfl⟩ := h.of_nil
    exact h'.of_nil
  | [c], _, _, _, _, h, h' => by
    obtain ⟨q, rfl, hq⟩ := h.of_cons fun _ => by simp
    obtain ⟨q', rfl, hq'⟩ := h'.of_cons fun _ => by simp
    obtain ⟨rfl, rfl⟩ := unique hne hq hq'
    exact ⟨rfl, rfl⟩
  | c :: d :: l, _, _, _, _, h, h' => by
    by_cases hsep : c = x ∧ d = y
    · rw [hsep.1, hsep.2] at h h'
      obtain ⟨q, qs, rfl, rfl, hq⟩ := h.of_separator hne
      obtain ⟨q', qs', rfl, rfl, hq'⟩ := h'.of_separator hne
      obtain ⟨rfl, rfl⟩ := unique hne hq hq'
      exact ⟨rfl, rfl⟩
    · have hc : c = x → (d :: l).head? ≠ some y := fun hc hd => hsep ⟨hc, Option.some.inj hd⟩
      obtain ⟨q, rfl, hq⟩ := h.of_cons hc
      obtain ⟨q', rfl, hq'⟩ := h'.of_cons hc
      obtain ⟨rfl, rfl⟩ := unique hne hq hq'
      exact ⟨rfl, rfl⟩

end Cut

/-- Every list can be cut. -/
theorem exists_cut [DecidableEq α] (x y : α) : ∀ l : List α, ∃ p ps, Cut x y l p ps
  | [] => ⟨[], [], .nil⟩
  | [c] => ⟨[c], [], Cut.nil.cons fun _ => by simp⟩
  | c :: d :: l => by
    by_cases h : c = x ∧ d = y
    · obtain ⟨rfl, rfl⟩ := h
      obtain ⟨p, ps, hcut⟩ := exists_cut c d l
      exact ⟨[], p :: ps, hcut.separator⟩
    · obtain ⟨p, ps, hcut⟩ := exists_cut x y (d :: l)
      refine ⟨c :: p, ps, hcut.cons fun hc hd => h ⟨hc, ?_⟩⟩
      exact Option.some.inj hd

end Pieces
