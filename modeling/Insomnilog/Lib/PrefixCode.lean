import Mathlib.Data.List.Infix
import Mathlib.Data.Set.Basic
import Mathlib.Tactic

/-! Codes in which no word is a proper prefix of another. -/
namespace PrefixCode
variable {α β δ : Type*} {S : Set α} {code : α → List β}

/-- Among the words of the members of `S` none is a proper prefix of another. -/
def PrefixFree (S : Set α) (code : α → List β) : Prop :=
  ∀ a ∈ S, ∀ b ∈ S, code a <+: code b → code a = code b

/-- A code is prefix free if some test accepts every word, whatever follows it, and
rejects every word that is cut short. -/
theorem PrefixFree.of_accepts (accepts : List β → Prop)
    (hfull : ∀ a ∈ S, ∀ rest, accepts (code a ++ rest))
    (hcut : ∀ a ∈ S, ∀ k < (code a).length, ¬ accepts ((code a).take k)) :
    PrefixFree S code := by
  intro a ha b hb hab
  by_cases hlen : (code a).length < (code b).length
  · have htake : (code b).take (code a).length = code a := (List.prefix_iff_eq_take.mp hab).symm
    have hacc := hfull a ha []
    rw [List.append_nil, ← htake] at hacc
    exact absurd hacc (hcut b hb _ hlen)
  · exact hab.eq_of_length_le (Nat.le_of_not_lt hlen)

/-- A concatenation of words of a prefix free code splits in only one way. -/
theorem PrefixFree.split_unique (h : PrefixFree S code) (hne : ∀ a ∈ S, code a ≠ [])
    {as bs : List α} (has : ∀ a ∈ as, a ∈ S) (hbs : ∀ b ∈ bs, b ∈ S)
    (heq : as.flatMap code = bs.flatMap code) : as.map code = bs.map code := by
  induction as generalizing bs with
  | nil =>
    cases bs with
    | nil => rfl
    | cons b bs =>
      have hb : code b = [] := by
        rw [List.flatMap_nil, List.flatMap_cons] at heq
        exact (List.append_eq_nil_iff.mp heq.symm).1
      exact absurd hb (hne b (hbs b List.mem_cons_self))
  | cons a as ih =>
    cases bs with
    | nil =>
      have ha : code a = [] := by
        rw [List.flatMap_nil, List.flatMap_cons] at heq
        exact (List.append_eq_nil_iff.mp heq).1
      exact absurd ha (hne a (has a List.mem_cons_self))
    | cons b bs =>
      rw [List.flatMap_cons, List.flatMap_cons] at heq
      have haS := has a List.mem_cons_self
      have hbS := hbs b List.mem_cons_self
      have hword : code a = code b := by
        rcases List.append_eq_append_iff.mp heq with ⟨r, hr, -⟩ | ⟨r, hr, -⟩
        · exact h a haS b hbS ⟨r, hr.symm⟩
        · exact (h b hbS a haS ⟨r, hr.symm⟩).symm
      rw [hword] at heq
      have hrest := ih (fun x hx => has x (List.mem_cons_of_mem _ hx))
        (fun x hx => hbs x (List.mem_cons_of_mem _ hx)) (List.append_cancel_left heq)
      rw [List.map_cons, List.map_cons, hword, hrest]

end PrefixCode
