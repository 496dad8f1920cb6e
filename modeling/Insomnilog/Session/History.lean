import Insomnilog.Lib.StepSystem
import Insomnilog.Session.Cascade

/-! The logs of past sessions over any sequence of constructions of a session sink. -/
namespace Insomnilog.Session
open Slots SessionFileSink

/-- The arguments of one construction, and the operations refused during it. -/
structure Construction where
  maxBackups : ℕ
  options : OpenOptions
  faults : Faults

/-- The disk, and how many constructions have succeeded. -/
structure State where
  disk : Disk
  created : ℕ

variable {path : OsString}

/-- A construction whose session would be the next one. -/
def construct (path : OsString) (s : State) (c : Construction) : Except ErrorKind Unit × State :=
  match tryFromOptions c.faults path c.maxBackups c.options s.created s.disk with
  | (.ok (), disk) => (.ok (), ⟨disk, s.created + 1⟩)
  | (.error e, disk) => (.error e, ⟨disk, s.created⟩)

/-- The state after a sequence of constructions. -/
def after (path : OsString) (cs : List Construction) (s : State) : State :=
  cs.foldl (fun s c => (construct path s c).2) s

/-- All sequences of constructions, from a disk with the given files on it. -/
def system (path : OsString) (files : OsString → Option SessionId) :
    StepSystem State Construction where
  init := ⟨⟨files, []⟩, 0⟩
  step s c := some (construct path s c).2

def State.slots (s : State) (path : OsString) : ℕ → Option SessionId := s.disk.slots path

theorem construct_cases (path : OsString) (s : State) (c : Construction) :
    let r := construct path s c
    r.2.disk.overwritten = s.disk.overwritten ∧
      (c.faults (.removeFile (getBackupPathForIndex path c.maxBackups)) = true ∧
          r = (.error .other, s) ∨
        c.faults (.removeFile (getBackupPathForIndex path c.maxBackups)) = false ∧
          ((∃ e, r.1 = .error e ∧ r.2.created = s.created ∧
              ∃ m ≤ c.maxBackups, r.2.slots path = shift m c.maxBackups (s.slots path)) ∨
            r.1 = .ok () ∧ r.2.created = s.created + 1 ∧
              r.2.slots path = put s.created (shift 0 c.maxBackups (s.slots path)))) := by
  have hcases := tryFromOptions_cases c.faults path c.maxBackups c.options s.created s.disk
  unfold construct
  generalize tryFromOptions c.faults path c.maxBackups c.options s.created s.disk = op at hcases
  obtain ⟨how, ⟨hf, rfl⟩ | ⟨hf, ⟨e, he, hm⟩ | ⟨hok, hput⟩⟩⟩ := hcases
  · exact ⟨rfl, .inl ⟨hf, rfl⟩⟩
  · obtain ⟨res, disk⟩ := op
    obtain rfl : res = .error e := he
    exact ⟨how, .inr ⟨hf, .inl ⟨e, rfl, rfl, hm⟩⟩⟩
  · obtain ⟨res, disk⟩ := op
    obtain rfl : res = .ok () := hok
    exact ⟨how, .inr ⟨hf, .inr ⟨rfl, rfl, hput⟩⟩⟩

/-- A session that a construction makes disappear was in its last slot. -/
theorem construct_holds {s : State} {c : Construction} {i : ℕ} {a : SessionId}
    (h : s.slots path i = some a) (hi : i ≠ c.maxBackups) :
    Holds ((construct path s c).2.slots path) a := by
  rcases (construct_cases path s c).2 with ⟨-, hr⟩ | ⟨-, ⟨e, -, -, m, hm, hs⟩ | ⟨-, -, hs⟩⟩
  · rw [hr]
    exact ⟨i, h⟩
  · rw [hs]
    exact shift_holds hm h hi
  · rw [hs]
    apply (shift_holds (Nat.zero_le _) h hi).put
    rw [shift, if_pos rfl]

/-- Higher slots hold older sessions, all of them already created, and no log has been
replaced by a rename. -/
structure InOrder (path : OsString) (s : State) : Prop where
  decreasing : Decreasing (s.slots path)
  created : ∀ i a, s.slots path i = some a → a < s.created
  overwritten : s.disk.overwritten = []

theorem InOrder.construct {s : State} (h : InOrder path s) (c : Construction) :
    InOrder path (construct path s c).2 := by
  have hshift (m : ℕ) : ∀ i a, shift m c.maxBackups (s.slots path) i = some a → a < s.created := by
    intro i a hi
    obtain ⟨j, hj⟩ := Holds.of_shift ⟨i, hi⟩
    exact h.created j a hj
  obtain ⟨how, hcases⟩ := construct_cases path s c
  rcases hcases with ⟨-, hr⟩ | ⟨-, ⟨e, -, hc, m, hm, hs⟩ | ⟨-, hc, hs⟩⟩
  · rw [hr]
    exact h
  · constructor
    · rw [hs]
      exact h.decreasing.shift
    · rw [hs, hc]
      exact hshift m
    · rw [how, h.overwritten]
  · constructor
    · rw [hs]
      exact h.decreasing.shift.put (hshift 0)
    · rw [hs, hc]
      intro i a hi
      by_cases hz : i = 0
      · subst i
        obtain rfl := Option.some.inj hi
        exact Nat.lt_succ_self _
      · rw [put_of_ne hz] at hi
        exact (hshift 0 i a hi).trans (Nat.lt_succ_self _)
    · rw [how, h.overwritten]

/-- Over any sequence of constructions from an empty set of slots, higher slots hold older
sessions, no session is held twice, no rename replaces a log, and a construction loses at
most the session of the slot it was told to keep last. -/
theorem rotation_keeps_history {files : OsString → Option SessionId} {s : State}
    (hempty : ∀ i, files (getBackupPathForIndex path i) = none)
    (h : (system path files).Reachable s) :
    Decreasing (s.slots path) ∧
      (∀ i j a, s.slots path i = some a → s.slots path j = some a → i = j) ∧
      s.disk.overwritten = [] ∧
      ∀ c s', (system path files).step s c = some s' → ∀ a, Holds (s.slots path) a →
        ¬ Holds (s'.slots path) a → s.slots path c.maxBackups = some a := by
  have hinv : InOrder path s := by
    apply h.invariant
    · have hnone (i : ℕ) : (system path files).init.slots path i = none := hempty i
      constructor
      · intro i j a b _ hi _
        rw [hnone] at hi
        cases hi
      · intro i a hi
        rw [hnone] at hi
        cases hi
      · rfl
    · intro s c s' _ hs hstep
      obtain rfl := Option.some.inj hstep
      exact hs.construct c
  refine ⟨hinv.decreasing, fun i j a => hinv.decreasing.injective, hinv.overwritten, ?_⟩
  intro c s' hstep a ⟨i, hi⟩ hlost
  obtain rfl := Option.some.inj hstep
  by_cases hmax : i = c.maxBackups
  · rw [← hmax]
    exact hi
  · exact absurd (construct_holds hi hmax) hlost

/-- `try_new` of a session sink that keeps `maxBackups` backups, nothing refused. -/
def plain (maxBackups : ℕ) : Construction :=
  ⟨maxBackups, { OpenOptions.new with append := true, create := true }, fun _ => false⟩

/-- A bound that is lowered for the last session: it takes the slot of the session before,
and the oldest log stays above it. -/
theorem rotation_keeps_history_lowered :
    let s := after [97] [plain 2, plain 2, plain 2, plain 1] (system [97] fun _ => none).init
    (s.slots [97] 0 = some 3 ∧ s.slots [97] 1 = some 2 ∧ s.slots [97] 2 = some 0) ∧
      Decreasing (s.slots [97]) := by
  intro s
  have hr : (system [97] fun _ => none).Reachable s :=
    ⟨[plain 2, plain 2, plain 2, plain 1], rfl⟩
  exact ⟨by decide, (rotation_keeps_history (fun _ => rfl) hr).1⟩

end Insomnilog.Session
