import Insomnilog.Backend.Delivery
import Insomnilog.Registry.Owners

/-! Records in flight. The backend's own invariants hold of it in every state, whatever
loggers stand at the addresses that are still free, and all records carry addresses of
loggers that are alive. -/
namespace Insomnilog.Registry
open Wire Frontend Backend

variable {t : Target} {cfg : Config t} {level : t.Ptr → LogLevel} {s s' s₁ : World t} {e : Event t}
  {b b' : State t} {ev : Backend.Event t} {i : ℕ} {th th' : Thread t} {x : Entry t}

/-- The thread has written the record, or is in the call that may write it. -/
def Carries (th : Thread t) (x : Entry t) : Prop := x ∈ th.committed ∨ th.phase.entry = some x

/-- A step of a thread carries no more than before, but for the record it checks. -/
theorem act_carries {lvl : t.Ptr → LogLevel} {a : Action t} (ha : th.act cfg lvl a = some th')
    (hx : Carries th' x) : Carries th x ∨ a = .check x.record := by
  rcases Thread.act_cases ha with ⟨r, rfl, hp, -, rfl⟩ | ⟨y, rfl, hp, -, rfl⟩ |
    ⟨off, y, rfl, hp, rfl⟩ | ⟨y, rfl, hp, rfl⟩ | ⟨rfl, hp, rfl⟩
  · unfold Thread.check at hx
    split at hx
    · rcases hx with hx | hx
      · exact .inl (.inl hx)
      · obtain rfl := Option.some.inj hx
        exact .inr rfl
    · exact .inl hx
  · unfold Thread.reserve at hx
    split at hx <;>
    · rcases hx with hx | hx
      · exact .inl (.inl hx)
      · exact .inl (.inr (by rw [hp]; exact hx))
  · rcases hx with hx | hx
    · rcases List.mem_append.mp hx with hx | hx
      · exact .inl (.inl hx)
      · obtain rfl := List.mem_singleton.mp hx
        exact .inl (.inr (by rw [hp]; rfl))
    · cases hx
  · rcases hx with hx | hx
    · exact .inl (.inl hx)
    · cases hx
  · exact .inl hx

theorem mem_set_cases {j : ℕ} (hi : (b.threads.set j th)[i]? = some th') :
    i = j ∧ th' = th ∨ b.threads[i]? = some th' := by
  rw [List.getElem?_set] at hi
  split at hi
  next hij =>
    obtain ⟨-, hi⟩ := Option.ite_none_right_eq_some.mp hi
    exact .inl ⟨hij.symm, (Option.some.inj hi).symm⟩
  · exact .inr hi

/-- A record that a thread carries was carried before, or has just been checked. -/
theorem step_carries (hev : Backend.step cfg b ev = some b') (hi : b'.threads[i]? = some th')
    (hx : Carries th' x) : b.At i (Carries · x) ∨ ev = .act i (.check x.record) := by
  cases ev with
  | spawn =>
    cases hev
    simp only [State.spawn, List.getElem?_append] at hi
    split at hi
    · exact .inl ⟨th', hi, hx⟩
    · obtain rfl := List.mem_singleton.mp (List.mem_of_getElem? hi)
      rcases hx with hx | hx <;> cases hx
  | register j =>
    obtain ⟨u, hj, hev⟩ := Option.bind_eq_some_iff.mp hev
    unfold State.register at hev
    split at hev <;> cases hev
    rcases mem_set_cases hi with ⟨rfl, rfl⟩ | hi
    · exact .inl ⟨u, hj, hx⟩
    · exact .inl ⟨th', hi, hx⟩
  | act j a =>
    obtain ⟨u, hj, hev⟩ := Option.bind_eq_some_iff.mp hev
    obtain ⟨u', ha, rfl⟩ := Option.map_eq_some_iff.mp hev
    rcases mem_set_cases hi with ⟨rfl, rfl⟩ | hi
    · rcases act_carries ha hx with hx | rfl
      · exact .inl ⟨u, hj, hx⟩
      · exact .inr rfl
    · exact .inl ⟨th', hi, hx⟩
  | setLevel logger lvl =>
    cases hev
    exact .inl ⟨th', hi, hx⟩
  | shutdown =>
    cases hev
    exact .inl ⟨th', hi, hx⟩
  | work =>
    have hframe := work_frame hev
    have hlt : i < b.threads.length := hframe.length ▸ (List.getElem?_eq_some_iff.mp hi).choose
    obtain ⟨u, hu, hcommitted, hphase⟩ := hframe.threads i _ (List.getElem?_eq_getElem hlt)
    obtain rfl := Option.some.inj (hi.symm.trans hu)
    refine .inl ⟨_, List.getElem?_eq_getElem hlt, ?_⟩
    rw [Carries, hcommitted, hphase] at hx
    exact hx

/-- A step looks at no other logger than that of the record which it begins to process. -/
theorem step_withLoggers {L D : t.Ptr → Logger}
    (h : ∀ down i budget n raw rest, b.worker = .advance down i budget n (.ok raw) rest →
      L raw.loggerPtr = D raw.loggerPtr) :
    Backend.step (withLoggers cfg L) b ev = Backend.step (withLoggers cfg D) b ev := by
  cases ev with
  | act j a => cases a <;> rfl
  | work =>
    show b.work _ = b.work _
    cases hw : b.worker with
    | advance down i budget n result rest =>
      cases result with
      | ok raw =>
        have hraw : (withLoggers cfg L).logger raw.loggerPtr =
            (withLoggers cfg D).logger raw.loggerPtr := h down i budget n raw rest hw
        simp only [State.work, hw]
        congr 1
        funext th
        simp only [State.finishRead, State.processRecord, Config.logRecord]
        rw [hraw]
      | _ =>
        simp only [State.work, hw]
        rfl
    | visit down rest => cases rest <;> simp only [State.work, hw]
    | poll down i budget rest => cases budget <;> simp only [State.work, hw]
    | retire down kept rest => cases rest <;> simp only [State.work, hw]
    | pending rest => cases rest <;> simp only [State.work, hw]
    | _ =>
      simp only [State.work, hw]
      try rfl
  | _ => rfl

/-- `L` has the loggers that are alive at their addresses. -/
def Describes (s : World t) (L : t.Ptr → Logger) : Prop := ∀ a l, s.deref a = some l → L a = l

theorem describes_loggerAt (s : World t) : Describes s s.loggerAt := by
  intro a l hl
  rw [World.loggerAt, hl, Option.getD_some]

structure Flight (cfg : Config t) (level : t.Ptr → LogLevel) (s : World t) : Prop where
  carried : ∀ (i : ℕ) (th : Thread t) (x : Entry t), s.backend.threads[i]? = some th →
    Carries th x → ∃ l, s.deref x.record.loggerPtr = some l
  backend : ∀ L, Describes s L → (Backend.system (withLoggers cfg L) level).Reachable s.backend
  dangling : s.dangling = false

namespace Flight

/-- The record that the worker has decoded is one that was written. -/
theorem decoded (h : Flight cfg level s) {down : Bool} {i budget n : ℕ} {rest : List ℕ}
    {raw : RawDecodedRecord t} (hw : s.backend.worker = .advance down i budget n (.ok raw) rest) :
    ∃ l, s.deref raw.loggerPtr = some l := by
  obtain ⟨k, hinv⟩ := backend_invariant (h.backend _ (describes_loggerAt s))
  have hok := hinv.worker
  rw [hw] at hok
  obtain ⟨-, -, th, hi, x, off, hx, -, -, -, hd, -⟩ := hok
  rw [(Record.decoded_fields hd.symm).1]
  exact h.carried i th x hi (.inl (List.mem_of_getElem? hx))

/-- A step outside the backend keeps what is alive, and may set the level of a logger. -/
theorem mono (h : Flight cfg level s) (hk : Kept s s') (hd : s'.dangling = s.dangling)
    {lvl : t.Ptr → LogLevel} (hb : s'.backend = { s.backend with level := lvl })
    (hl : ∀ L, (Backend.system (withLoggers cfg L) level).Reachable s.backend →
      (Backend.system (withLoggers cfg L) level).Reachable { s.backend with level := lvl }) :
    Flight cfg level s' where
  carried i th x hi hx := by
    rw [hb] at hi
    obtain ⟨l, hl⟩ := h.carried i th x hi hx
    exact ⟨l, hk.deref _ l hl⟩
  backend L hL := by
    rw [hb]
    exact hl L (h.backend L fun a l ha => hL a l (hk.deref a l ha))
  dangling := hd.trans h.dangling

theorem setLevel (h : Flight cfg level s) (hk : Kept s s') (hd : s'.dangling = s.dangling)
    {a : t.Ptr} {lvl : LogLevel}
    (hb : s'.backend = { s.backend with level := Function.update s.backend.level a lvl }) :
    Flight cfg level s' :=
  h.mono hk hd hb fun _ hr => hr.step (e := .setLevel a lvl) rfl

theorem runner (h : Flight cfg level s) (ho : Owners s) (hadmits : s.admits ev = true)
    (he : s.runnerStep cfg ev = some s') : Flight cfg level s' := by
  obtain ⟨b', hev, rfl⟩ := Option.map_eq_some_iff.mp he
  refine ⟨fun i th x hi hx => ?_, fun L hL => ?_, ?_⟩
  · rcases step_carries hev hi hx with ⟨u, hu, hux⟩ | rfl
    · exact h.carried i u x hu hux
    · have hheld : x.record.loggerPtr ∈ s.heldLoggers := of_decide_eq_true hadmits
      exact ho.alive (ho.held _ hheld)
  · apply (h.backend L hL).step
    refine (step_withLoggers fun down i budget n raw rest hw => ?_).trans hev
    obtain ⟨l, hl⟩ := h.decoded hw
    rw [hL _ l hl, describes_loggerAt s _ l hl]
  · simp only [h.dangling, Bool.false_or, Bool.and_eq_false_iff]
    right
    unfold World.dereferenced
    split
    next raw _ hw =>
      obtain ⟨l, hl⟩ := h.decoded hw
      simp [hl]
    · rfl

end Flight

end Insomnilog.Registry
