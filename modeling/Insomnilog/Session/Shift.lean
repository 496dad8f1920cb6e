import Insomnilog.Session.Cascade

/-! The effect of a rotation that succeeds, on every file of the disk. -/
namespace Insomnilog.Session
open Slots SessionFileSink

variable {faults : Faults} {path : OsString} {d d' : Disk} {n : ℕ}

/-- Each of the files `path`, …, `path.(n - 1)` has become the next one, as it was or absent,
and no other file has changed. -/
structure ShiftedByOne (path : OsString) (n : ℕ) (d d' : Disk) : Prop where
  moved : ∀ i, 1 ≤ i → i ≤ n → d'.slots path i = d.slots path (i - 1)
  live : d'.files path = none
  /-- The log of the last slot is in no file, unless it was in another one too. -/
  dropped : ∀ a, (∀ p, d.files p = some a → p = getBackupPathForIndex path n) →
    ∀ p, d'.files p ≠ some a
  above : ∀ j, n < j → d'.slots path j = d.slots path j
  other : ∀ p, (∀ i ≤ n, p ≠ getBackupPathForIndex path i) → d'.files p = d.files p
  overwritten : d'.overwritten = d.overwritten

theorem removeIfPresent_frame {p : OsString} (hp : p ≠ path) (faults : Faults) (d : Disk) :
    (removeIfPresent faults path d).2.files p = d.files p := by
  unfold removeIfPresent skipMissing Fs.removeFile
  cases hf : faults (.removeFile path) with
  | true => simp
  | false =>
    cases hfile : d.files path with
    | none => simp
    | some a => simp [hp]

theorem renameIfPresent_frame {p source target : OsString} (hs : p ≠ source) (ht : p ≠ target)
    (faults : Faults) (d : Disk) :
    (renameIfPresent faults source target d).2.files p = d.files p := by
  unfold renameIfPresent skipMissing Fs.rename
  cases hf : faults (.rename source target) with
  | true => simp
  | false =>
    cases hfile : d.files source with
    | none => simp
    | some a => simp [hs, ht]

/-- The cascade touches no file but the numbered ones, whether it succeeds or not. -/
theorem renameLoop_frame {p : OsString} (hp : ∀ i ≤ n, p ≠ getBackupPathForIndex path i)
    (faults : Faults) (d : Disk) : (renameLoop faults path n d).2.files p = d.files p := by
  induction n generalizing d with
  | zero => rfl
  | succ index ih =>
    have hone := renameIfPresent_frame (hp index (by omega)) (hp (index + 1) le_rfl) faults d
    simp only [renameLoop, Io.andThen]
    split
    next heq =>
      rw [heq] at hone
      rw [ih (fun i hi => hp i (by omega))]
      exact hone
    next heq =>
      rw [heq] at hone
      exact hone

/-- What the numbered files hold after a rotation that succeeds. -/
theorem rotate_slots (h : rotate faults path n d = (.ok (), d')) :
    d'.slots path = shift 0 n (d.slots path) ∧ d'.overwritten = d.overwritten := by
  unfold rotate Io.andThen at h
  rcases removeIfPresent_cases faults path n d with ⟨-, hr⟩ | ⟨-, d₁, hr, how, hempty, hkeep⟩
  · rw [hr] at h
    cases h
  · simp only [hr] at h
    obtain ⟨m, hm, d₂, hslots, how', ⟨rfl, hl⟩ | ⟨e, hl⟩⟩ := renameLoop_cases faults hempty
    · rw [hl] at h
      obtain rfl := (Prod.mk.inj h).2
      exact ⟨by rw [hslots, shift_congr hm hkeep], how'.trans how⟩
    · rw [hl] at h
      cases h

theorem rotate_frame {p : OsString} (hp : ∀ i ≤ n, p ≠ getBackupPathForIndex path i)
    (h : rotate faults path n d = (.ok (), d')) : d'.files p = d.files p := by
  have hremove := removeIfPresent_frame (hp n le_rfl) faults d
  unfold rotate Io.andThen at h
  split at h
  next d₁ heq =>
    rw [heq] at hremove
    have hloop := renameLoop_frame hp faults d₁
    have hrun : renameLoop faults path n d₁ = (.ok (), d') := h
    rw [hrun] at hloop
    exact hloop.trans hremove
  next => cases h

theorem ShiftedByOne.of_rotate (h : rotate faults path n d = (.ok (), d')) :
    ShiftedByOne path n d d' := by
  obtain ⟨hslots, how⟩ := rotate_slots h
  have hmoved : ∀ i, 1 ≤ i → i ≤ n → d'.slots path i = d.slots path (i - 1) := by
    intro i hi hin
    rw [hslots, shift, if_neg (by omega), if_pos (by omega)]
  have hlive : d'.slots path 0 = none := by rw [hslots, shift, if_pos rfl]
  refine
    { moved := hmoved
      live := hlive
      dropped := fun a honly p hp => ?_
      above := fun j hj => by rw [hslots, shift, if_neg (by omega), if_neg (by omega)]
      other := fun p hp => rotate_frame hp h
      overwritten := how }
  by_cases hslot : ∃ i ≤ n, p = getBackupPathForIndex path i
  · obtain ⟨i, hin, rfl⟩ := hslot
    rcases Nat.eq_zero_or_pos i with rfl | hi
    · exact absurd (hp.symm.trans hlive) (by simp)
    · have hold : d.slots path (i - 1) = some a := (hmoved i hi hin).symm.trans hp
      have := getBackupPathForIndex_eq_iff.mp (honly _ hold)
      omega
  · push Not at hslot
    have hold : d.files p = some a := (rotate_frame hslot h).symm.trans hp
    exact hslot n le_rfl (honly p hold)

/-- Opening in append mode creates a file where there is none. -/
theorem openFile_fresh {session : SessionId} (hnone : d.files path = none)
    (h : Fs.openFile faults { OpenOptions.new with append := true, create := true } path session d =
      (.ok (), d')) :
    d'.files path = some session ∧ ∀ p, p ≠ path → d'.files p = d.files p := by
  unfold Fs.openFile at h
  simp only [hnone] at h
  split at h
  · cases h
  · split at h
    · cases h
    · split at h
      · obtain rfl := (Prod.mk.inj h).2
        exact ⟨if_pos rfl, fun p hp => if_neg hp⟩
      · cases h

/-- A rotation that succeeds shifts the numbered files by one and changes no other file. The
open that follows it in `try_new` creates the live file, and touches no older session. -/
theorem rotate_shifts_by_one (h : rotate faults path n d = (.ok (), d')) :
    ShiftedByOne path n d d' ∧
      ∀ session d'', tryNew faults path n session d = (.ok (), d'') →
        d''.files path = some session ∧ ∀ p, p ≠ path → d''.files p = d'.files p := by
  have hshift := ShiftedByOne.of_rotate h
  refine ⟨hshift, fun session d'' hnew => ?_⟩
  have hopen : Fs.openFile faults { OpenOptions.new with append := true, create := true } path
      session d' = (.ok (), d'') := by
    simp only [tryNew, tryFromOptions, Io.andThen, h] at hnew
    exact hnew
  exact openFile_fresh hshift.live hopen

/-- The live log `a`, its backup `a.2` and none in between, and a file `a.10`. -/
def gapped : Disk where
  files p := if p = [97] then some 5 else if p = [97, 46, 50] then some 3
    else if p = [97, 46, 49, 48] then some 8 else none
  overwritten := []

theorem rotate_shifts_by_one_gapped :
    ∃ d', rotate (fun _ => false) [97] 3 gapped = (.ok (), d') ∧ ShiftedByOne [97] 3 gapped d' ∧
      d'.slots [97] 1 = some 5 ∧ d'.slots [97] 2 = none ∧ d'.slots [97] 3 = some 3 ∧
      d'.slots [97] 10 = some 8 := by
  obtain ⟨d', hrun⟩ : ∃ d', rotate (fun _ => false) [97] 3 gapped = (.ok (), d') := ⟨_, rfl⟩
  have hshift := (rotate_shifts_by_one hrun).1
  refine ⟨d', hrun, hshift, ?_, ?_, ?_, ?_⟩
  · exact (hshift.moved 1 (by decide) (by decide)).trans (by decide)
  · exact (hshift.moved 2 (by decide) (by decide)).trans (by decide)
  · exact (hshift.moved 3 (by decide) (by decide)).trans (by decide)
  · exact (hshift.above 10 (by decide)).trans (by decide)

end Insomnilog.Session
