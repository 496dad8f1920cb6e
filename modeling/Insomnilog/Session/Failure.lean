import Insomnilog.Session.History

/-! What a construction that returns an error does to the logs of past sessions. -/
namespace Insomnilog.Session
open Slots SessionFileSink

variable {path : OsString} {s : State} {c : Construction}

/-- The log in the last slot survives a failed construction exactly when the removal was
refused or the log was in another slot as well. -/
theorem failed_last_holds_iff {e : ErrorKind} {a : SessionId}
    (hfail : (construct path s c).1 = .error e) (ha : s.slots path c.maxBackups = some a) :
    Holds ((construct path s c).2.slots path) a ↔
      c.faults (.removeFile (getBackupPathForIndex path c.maxBackups)) = true ∨
        ∃ i, i ≠ c.maxBackups ∧ s.slots path i = some a := by
  rcases (construct_cases path s c).2 with ⟨hf, hr⟩ | ⟨hf, ⟨_, -, -, m, hm, hs⟩ | ⟨hok, -, -⟩⟩
  · rw [hr, hf]
    exact ⟨fun _ => .inl rfl, fun _ => ⟨_, ha⟩⟩
  · rw [hs, hf]
    constructor
    · intro h
      exact .inr (Holds.of_shift_of_ne hm h)
    · rintro (h | ⟨i, hi, h⟩)
      · cases h
      · exact shift_holds hm h hi
  · rw [hok] at hfail
    cases hfail

/-- At most one log is lost with each construction, failed or not. -/
theorem after_loses_at_most (path : OsString) (cs : List Construction) (s : State) :
    ∃ lost : List SessionId, lost.length ≤ cs.length ∧
      ∀ a, Holds (s.slots path) a → Holds ((after path cs s).slots path) a ∨ a ∈ lost := by
  induction cs generalizing s with
  | nil => exact ⟨[], le_rfl, fun a h => .inl h⟩
  | cons c cs ih =>
    obtain ⟨lost, hlen, hlost⟩ := ih (construct path s c).2
    refine ⟨(s.slots path c.maxBackups).toList ++ lost, ?_, ?_⟩
    · rw [List.length_append, List.length_cons]
      have : (s.slots path c.maxBackups).toList.length ≤ 1 := by
        cases s.slots path c.maxBackups <;> simp
      omega
    · rintro a ⟨i, hi⟩
      by_cases hmax : i = c.maxBackups
      · right
        rw [← hmax, hi]
        simp
      · rcases hlost a (construct_holds hi hmax) with h | h
        · exact .inl h
        · exact .inr (List.mem_append_right _ h)

/-- A failed construction keeps every log but the one in the last slot, and keeps that one
exactly when its removal was refused or it was in another slot as well. Repeated
constructions lose at most one log each. -/
theorem failed_construction_loses_at_most_oldest (path : OsString) (s : State) :
    (∀ c e, (construct path s c).1 = .error e →
      (∀ i a, i ≠ c.maxBackups → s.slots path i = some a →
        Holds ((construct path s c).2.slots path) a) ∧
      ∀ a, s.slots path c.maxBackups = some a →
        (Holds ((construct path s c).2.slots path) a ↔
          c.faults (.removeFile (getBackupPathForIndex path c.maxBackups)) = true ∨
            ∃ i, i ≠ c.maxBackups ∧ s.slots path i = some a)) ∧
    ∀ cs, ∃ lost : List SessionId, lost.length ≤ cs.length ∧
      ∀ a, Holds (s.slots path) a → Holds ((after path cs s).slots path) a ∨ a ∈ lost := by
  constructor
  · intro c e hfail
    exact ⟨fun i a hi h => construct_holds h hi, fun a => failed_last_holds_iff hfail⟩
  · exact fun cs => after_loses_at_most path cs s

/-- Two sessions on the disk, the older one in slot 1. -/
def twoLogs : State where
  disk := {
    files := fun p => if p = [97] then some 1 else if p = [97, 46, 49] then some 0 else none
    overwritten := [] }
  created := 2

theorem twoLogs_slots {i : ℕ} {a : SessionId} (h : twoLogs.slots [97] i = some a) :
    i = 0 ∧ a = 1 ∨ i = 1 ∧ a = 0 := by
  have h0 : getBackupPathForIndex [97] i = [97] ↔ i = 0 := getBackupPathForIndex_eq_iff (j := 0)
  have h1 : getBackupPathForIndex [97] i = [97, 46, 49] ↔ i = 1 :=
    getBackupPathForIndex_eq_iff (j := 1)
  simp only [State.slots, Disk.slots, twoLogs, h0, h1] at h
  grind

/-- `try_new` keeping one backup, when the file cannot be opened. -/
def openRefused : Construction :=
  { plain 1 with faults := fun op => decide (op = .openFile [97]) }

theorem failed_construction_loses_at_most_oldest_two :
    Holds ((construct [97] twoLogs openRefused).2.slots [97]) 1 :=
  ((failed_construction_loses_at_most_oldest [97] twoLogs).1 openRefused .other (by decide)).1 0 1
    (by decide) (by decide)

/-- The file cannot be opened, twice: the first error comes with the loss of the older of
two logs, the second with that of the other. -/
theorem failed_construction_loses_log :
    let once := (construct [97] twoLogs openRefused).2
    (construct [97] twoLogs openRefused).1 = .error .other ∧
      twoLogs.slots [97] 1 = some 0 ∧ ¬ Holds (once.slots [97]) 0 ∧
      (construct [97] once openRefused).1 = .error .other ∧
      once.slots [97] 1 = some 1 ∧
      ¬ Holds ((construct [97] once openRefused).2.slots [97]) 1 := by
  intro once
  have honce : (construct [97] twoLogs openRefused).1 = .error .other := by decide
  have htwice : (construct [97] once openRefused).1 = .error .other := by decide
  refine ⟨honce, by decide, fun h => ?_, htwice, by decide, fun h => ?_⟩
  · rcases (failed_last_holds_iff honce (by decide)).mp h with h | ⟨i, hi, h⟩
    · exact absurd h (by decide)
    · rcases twoLogs_slots h with ⟨_, ha⟩ | ⟨hi', _⟩
      · cases ha
      · exact hi hi'
  · rcases (failed_last_holds_iff htwice (by decide)).mp h with h | ⟨i, hi, h⟩
    · exact absurd h (by decide)
    · have hzero : i ≠ 0 := by
        rintro rfl
        exact absurd h (by decide)
      rcases (construct_cases [97] twoLogs openRefused).2 with
        ⟨hf, -⟩ | ⟨-, ⟨_, -, -, m, -, hs⟩ | ⟨hok, -, -⟩⟩
      · exact absurd hf (by decide)
      · rw [show once.slots [97] = _ from hs] at h
        obtain ⟨-, ⟨_, hle, -⟩ | ⟨-, h⟩⟩ := shift_eq_some h
        · have : i ≤ 1 := hle
          have : i ≠ 1 := hi
          omega
        · rcases twoLogs_slots h with ⟨hi', -⟩ | ⟨hi', -⟩
          · exact hzero hi'
          · exact hi hi'
      · rw [honce] at hok
        cases hok

end Insomnilog.Session
