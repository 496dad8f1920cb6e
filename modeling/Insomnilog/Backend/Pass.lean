import Insomnilog.Backend.Turn

/-! A pass of the worker over the consumers it has snapshotted: each is visited at most once, for
at most a batch. -/
namespace Insomnilog.Backend
open Wire Queue Framing Frontend

variable {t : Target} {cfg : Config t} {level : t.Ptr → LogLevel} {k i : ℕ} {s s' : State t}
  {th th' : Thread t} {w : Worker t}

/-- The consumers that the pass has still to deal with, the one at hand among them. -/
def Worker.list : Worker t → List ℕ
  | .visit _ rest => rest
  | .poll _ i _ rest => i :: rest
  | .peek _ i _ _ rest => i :: rest
  | .read _ i _ _ rest => i :: rest
  | .advance _ i _ _ _ rest => i :: rest
  | .fanout _ _ rest f _ => f.thread :: rest
  | .retire _ kept rest => kept ++ rest
  | .retireDead _ kept i rest => kept ++ i :: rest
  | .pending rest => rest
  | _ => []

/-- The records that the visit can still take, the one at hand among them. -/
def Worker.budget : Worker t → ℕ
  | .poll _ _ budget _ => budget
  | .peek _ _ budget _ _ => budget + 1
  | .read _ _ budget _ _ => budget + 1
  | .advance _ _ budget _ _ _ => budget + 1
  | .fanout _ budget _ _ _ => budget + 1
  | _ => 0

theorem Moves.list {w w' : Worker t} (h : Moves cfg s w w')
    (hlist : w.list.Sublist s.consumers) : w'.list.Sublist s.consumers := by
  cases h with
  | snapshot => exact List.Sublist.refl _
  | visited => exact List.Sublist.refl _
  | full => exact (List.sublist_cons_self _ _).trans hlist
  | empty => exact (List.sublist_cons_self _ _).trans hlist
  | alive =>
    rw [Worker.list, List.append_assoc]
    exact hlist
  | keep =>
    rw [Worker.list, List.append_assoc]
    exact hlist
  | drop => exact (List.Sublist.append_left (List.sublist_cons_self _ _) _).trans hlist
  | beforePending => exact List.Sublist.refl _
  | next => exact (List.sublist_cons_self _ _).trans hlist
  | visit | poll | peek | read | fannedOut | fanout | dead => exact hlist
  | _ => exact List.nil_sublist _

theorem Moves.budget {w w' : Worker t} (h : Moves cfg s w w')
    (hbudget : w.budget ≤ MAX_BATCH_PER_CONSUMER) : w'.budget ≤ MAX_BATCH_PER_CONSUMER := by
  cases h with
  | visit => exact le_rfl
  | fannedOut => exact (Nat.le_succ _).trans hbudget
  | poll | peek | read | fanout => exact hbudget
  | _ => exact Nat.zero_le _

/-- The registry has no consumer twice, and the pass goes through some of it, in its order. -/
structure Orderly (s : State t) : Prop where
  nodup : s.consumers.Nodup
  registered : ∀ (i : ℕ) (th : Thread t), s.threads[i]? = some th → th.registered = false →
    i ∉ s.consumers
  list : s.worker.list.Sublist s.consumers
  budget : s.worker.budget ≤ MAX_BATCH_PER_CONSUMER

/-- No step of the worker registers a thread. -/
theorem work_registered (hw : s.work cfg = some s') :
    s'.threads.map Thread.registered = s.threads.map Thread.registered := by
  have hset {i : ℕ} {th th' : Thread t} (hi : s.threads[i]? = some th)
      (hth : th'.registered = th.registered) :
      (s.threads.set i th').map Thread.registered = s.threads.map Thread.registered := by
    have hlt : i < (s.threads.map Thread.registered).length := by
      simpa using (List.getElem?_eq_some_iff.mp hi).choose
    have hget : (s.threads.map Thread.registered)[i] = th'.registered := by
      rw [hth, List.getElem_map, (List.getElem?_eq_some_iff.mp hi).choose_spec]
    rw [List.map_set, ← hget, List.set_getElem_self]
  unfold State.work at hw
  split at hw
  case h_6 | h_13 | h_16 =>
    obtain ⟨th, hi, rfl⟩ := Option.map_eq_some_iff.mp hw
    exact hset hi rfl
  case h_7 =>
    obtain ⟨th, hi, rfl⟩ := Option.map_eq_some_iff.mp hw
    unfold State.peekHeader
    split
    · rfl
    · dsimp only
      split <;> exact hset hi rfl
  case h_8 =>
    obtain ⟨th, hi, rfl⟩ := Option.map_eq_some_iff.mp hw
    unfold State.readRecord
    dsimp only
    split
    · exact hset hi rfl
    · split <;> exact hset hi rfl
  case h_9 result _ _ =>
    obtain ⟨th, hi, rfl⟩ := Option.map_eq_some_iff.mp hw
    cases result <;> exact hset hi rfl
  case h_10 sinks _ =>
    cases hw
    cases sinks <;> rfl
  case h_12 =>
    obtain ⟨th, hi, rfl⟩ := Option.map_eq_some_iff.mp hw
    rfl
  case h_17 | h_18 => cases hw
  all_goals
    cases hw
    rfl

namespace Orderly

theorem turn (h : Orderly s) (hturn : Turn cfg s s')
    (hthreads : s'.threads.map Thread.registered = s.threads.map Thread.registered) :
    Orderly s' := by
  have hregistered (hsub : ∀ i, i ∈ s'.consumers → i ∈ s.consumers) (i : ℕ) (th' : Thread t)
      (hi : s'.threads[i]? = some th') (hr : th'.registered = false) : i ∉ s'.consumers := by
    intro hmem
    have hget : (s.threads.map Thread.registered)[i]? = some false := by
      rw [← hthreads, List.getElem?_map, hi, Option.map_some, hr]
    rw [List.getElem?_map] at hget
    obtain ⟨th, hth, hreg⟩ := Option.map_eq_some_iff.mp hget
    exact h.registered i th hth hreg (hsub i hmem)
  cases hturn with
  | moves hm hunreads hconsumers =>
    refine ⟨hconsumers ▸ h.nodup, hregistered (by rw [hconsumers]; exact fun _ => id), ?_,
      hm.budget h.budget⟩
    rw [hconsumers]
    exact hm.list h.list
  | @takes down i j budget totalLen result rest e es hs hi hunreads hconsumers hw =>
    have hlist := h.list
    have hbudget := h.budget
    rw [hs] at hlist hbudget
    refine ⟨hconsumers ▸ h.nodup, hregistered (by rw [hconsumers]; exact fun _ => id), ?_, ?_⟩
    · rw [hconsumers]
      rcases hw with ⟨-, hw⟩ | ⟨f, rfl, hw⟩
      · rw [hw]
        exact (List.sublist_cons_self _ _).trans hlist
      · rw [hw]
        exact hlist
    · rcases hw with ⟨-, hw⟩ | ⟨f, rfl, hw⟩
      · rw [hw]
        exact Nat.zero_le _
      · rw [hw]
        exact hbudget
  | @retired down kept hs hunreads hconsumers hw =>
    have hkept := h.list
    rw [hs, Worker.list, List.append_nil] at hkept
    refine ⟨hconsumers ▸ hkept.nodup h.nodup, hregistered ?_, ?_, ?_⟩
    · rw [hconsumers]
      exact fun i hi => hkept.subset hi
    · rw [hw]
      cases down <;> exact List.nil_sublist _
    · rw [hw]
      cases down <;> exact Nat.zero_le _

theorem step (hs : (system cfg level).Reachable s) (h : Orderly s) {ev : Event t}
    (he : Backend.step cfg s ev = some s') : Orderly s' := by
  obtain ⟨k, hinv⟩ := backend_invariant hs
  cases ev with
  | spawn =>
    cases he
    refine ⟨h.nodup, fun i th hi hr => ?_, h.list, h.budget⟩
    rcases Nat.lt_or_ge i s.threads.length with hlt | hge
    · exact h.registered i th ((List.getElem?_append_left hlt).symm.trans hi) hr
    · intro hmem
      exact absurd (hinv.consumers i hmem) (Nat.not_lt.mpr hge)
  | register i =>
    obtain ⟨th, hi, hr⟩ := Option.bind_eq_some_iff.mp he
    unfold State.register at hr
    split at hr
    · cases hr
    next hguard =>
      cases hr
      simp only [Bool.or_eq_true, not_or, Bool.not_eq_true] at hguard
      have hnew := h.registered i th hi hguard.1.2
      refine ⟨?_, fun j u hj hu => ?_, h.list.trans (List.sublist_append_left _ _), h.budget⟩
      · exact List.nodup_append.mpr ⟨h.nodup, List.nodup_singleton i, fun a ha b hb => by
          rw [List.mem_singleton.mp hb]
          rintro rfl
          exact hnew ha⟩
      · show j ∉ s.consumers ++ [i]
        by_cases hji : j = i
        · subst hji
          obtain rfl := Option.some.inj ((State.getElem?_setThread hi _).symm.trans hj)
          cases hu
        · have hj' : s.threads[j]? = some u :=
            (List.getElem?_set_ne (Ne.symm hji)).symm.trans hj
          simp [h.registered j u hj' hu, hji]
  | act i a =>
    obtain ⟨th, hi, hr⟩ := Option.bind_eq_some_iff.mp he
    obtain ⟨th', ha, rfl⟩ := Option.map_eq_some_iff.mp hr
    refine ⟨h.nodup, fun j u hj hu => ?_, h.list, h.budget⟩
    by_cases hji : j = i
    · subst hji
      obtain rfl := Option.some.inj ((State.getElem?_setThread hi _).symm.trans hj)
      exact h.registered j th hi (Thread.registered_act ha ▸ hu)
    · exact h.registered j u ((List.getElem?_set_ne (Ne.symm hji)).symm.trans hj) hu
  | setLevel logger lvl =>
    cases he
    exact ⟨h.nodup, h.registered, h.list, h.budget⟩
  | shutdown =>
    cases he
    exact ⟨h.nodup, h.registered, h.list, h.budget⟩
  | work => exact h.turn (hinv.turn he) (work_registered he)

end Orderly

theorem orderly (hs : (system cfg level).Reachable s) : Orderly s := by
  refine hs.invariant (I := Orderly) ?_ fun _ _ _ hs h he => h.step hs he
  exact ⟨List.nodup_nil, fun i th hi => by simp [system] at hi, List.nil_sublist _,
    Nat.zero_le _⟩

end Insomnilog.Backend
