import Insomnilog.Lib.Decimal
import Insomnilog.Session.Rotate

/-! What one construction does to the numbered files, wherever it stops. -/
namespace Insomnilog.Session
open Slots SessionFileSink

variable {faults : Faults} {path : OsString} {options : OpenOptions} {session : SessionId}
variable {d d' : Disk} {n : ℕ}

theorem digits_injective : Function.Injective digits := by
  intro i j h
  have hval (k : ℕ) : (digits k).map (fun b => Char.ofNat b.toNat) = Nat.toDigits 10 k := by
    rw [digits, List.map_map]
    nth_rewrite 2 [← List.map_id (Nat.toDigits 10 k)]
    apply List.map_congr_left
    intro c hc
    have hdigit := Decimal.isDigit_of_mem_toDigits hc
    have hlt : c.toNat < 256 := by
      simp only [Char.isDigit, Bool.and_eq_true, decide_eq_true_eq] at hdigit
      have : c.val ≤ 57 := hdigit.2
      have : c.val.toNat ≤ 57 := this
      have hc : c.toNat = c.val.toNat := rfl
      omega
    show Char.ofNat (UInt8.ofNat c.toNat).toNat = c
    rw [UInt8.toNat_ofNat', Nat.mod_eq_of_lt hlt, Char.ofNat_toNat]
  rw [← Nat.ofDigitChars_ten_toDigits (n := i), ← hval, h, hval, Nat.ofDigitChars_ten_toDigits]

/-- Distinct indices name distinct files. -/
theorem getBackupPathForIndex_injective (path : OsString) :
    Function.Injective (getBackupPathForIndex path) := by
  intro i j h
  unfold getBackupPathForIndex at h
  split at h <;> split at h
  · omega
  · simpa using congrArg List.length h
  · simpa using congrArg List.length h
  · exact digits_injective (List.cons.inj (List.append_cancel_left h)).2

theorem getBackupPathForIndex_eq_iff {i j : ℕ} :
    getBackupPathForIndex path i = getBackupPathForIndex path j ↔ i = j :=
  (getBackupPathForIndex_injective path).eq_iff

/-- The removal is refused, or it empties its slot. -/
theorem removeIfPresent_cases (faults : Faults) (path : OsString) (n : ℕ) (d : Disk) :
    let op := removeIfPresent faults (getBackupPathForIndex path n)
    faults (.removeFile (getBackupPathForIndex path n)) = true ∧ op d = (.error .other, d) ∨
      faults (.removeFile (getBackupPathForIndex path n)) = false ∧
        ∃ d', op d = (.ok (), d') ∧ d'.overwritten = d.overwritten ∧ d'.slots path n = none ∧
          ∀ i, i ≠ n → d'.slots path i = d.slots path i := by
  intro op
  cases hf : faults (.removeFile (getBackupPathForIndex path n)) with
  | true => exact .inl ⟨rfl, by simp only [op, removeIfPresent, skipMissing, Fs.removeFile, hf,
      ↓reduceIte]⟩
  | false =>
    refine .inr ⟨rfl, ?_⟩
    cases hfile : d.files (getBackupPathForIndex path n) with
    | none =>
      refine ⟨d, ?_, rfl, hfile, fun _ _ => rfl⟩
      simp only [op, removeIfPresent, skipMissing, Fs.removeFile, hf, hfile, Bool.false_eq_true,
        ↓reduceIte]
    | some session =>
      refine ⟨{ d with files := fun p =>
        if p = getBackupPathForIndex path n then none else d.files p }, ?_, rfl, if_pos rfl, ?_⟩
      · simp only [op, removeIfPresent, skipMissing, Fs.removeFile, hf, hfile, Bool.false_eq_true,
          ↓reduceIte]
      · intro i hi
        exact if_neg fun h => hi (getBackupPathForIndex_eq_iff.mp h)

/-- One step of the cascade into an empty slot is refused, or it moves one log up. -/
theorem renameIfPresent_cases (faults : Faults) {index : ℕ}
    (hempty : d.slots path (index + 1) = none) :
    let op := renameIfPresent faults (getBackupPathForIndex path index)
      (getBackupPathForIndex path (index + 1))
    op d = (.error .other, d) ∨ ∃ d', op d = (.ok (), d') ∧ d'.overwritten = d.overwritten ∧
      d'.slots path = shift index (index + 1) (d.slots path) := by
  intro op
  cases hf : faults (.rename (getBackupPathForIndex path index)
      (getBackupPathForIndex path (index + 1))) with
  | true => exact .inl (by simp only [op, renameIfPresent, skipMissing, Fs.rename, hf, ↓reduceIte])
  | false =>
    right
    cases hfile : d.files (getBackupPathForIndex path index) with
    | none =>
      refine ⟨d, ?_, rfl, ?_⟩
      · simp only [op, renameIfPresent, skipMissing, Fs.rename, hf, hfile, Bool.false_eq_true,
          ↓reduceIte]
      · funext i
        have hindex : d.slots path index = none := hfile
        simp only [shift]
        grind
    | some session =>
      have hrun : op d = (.ok (), {
          files := fun p =>
            if p = getBackupPathForIndex path index then none
            else if p = getBackupPathForIndex path (index + 1) then some session else d.files p
          overwritten := d.overwritten ++
            (d.files (getBackupPathForIndex path (index + 1))).toList }) := by
        simp only [op, renameIfPresent, skipMissing, Fs.rename, hf, hfile, Bool.false_eq_true,
          ↓reduceIte]
      refine ⟨_, hrun, ?_, ?_⟩
      · have htarget : d.files (getBackupPathForIndex path (index + 1)) = none := hempty
        simp only [htarget, Option.toList_none, List.append_nil]
      · funext i
        simp only [Disk.slots, getBackupPathForIndex_eq_iff, shift]
        grind

/-- The cascade stops at some slot: the logs of the slots from there on have moved up by
one, and no log has been replaced. -/
theorem renameLoop_cases (faults : Faults) (hempty : d.slots path n = none) :
    ∃ m ≤ n, ∃ d', d'.slots path = shift m n (d.slots path) ∧ d'.overwritten = d.overwritten ∧
      (m = 0 ∧ renameLoop faults path n d = (.ok (), d') ∨
        ∃ e, renameLoop faults path n d = (.error e, d')) := by
  induction n generalizing d with
  | zero => exact ⟨0, le_rfl, d, (shift_self hempty).symm, rfl, .inl ⟨rfl, rfl⟩⟩
  | succ index ih =>
    rcases renameIfPresent_cases faults hempty with he | ⟨d₁, hok, how, hslots⟩
    · refine ⟨index + 1, le_rfl, d, (shift_self hempty).symm, rfl, .inr ⟨.other, ?_⟩⟩
      simp only [renameLoop, Io.andThen, he]
    · have hnext : d₁.slots path index = none := by rw [hslots, shift, if_pos rfl]
      obtain ⟨m, hm, d', hd', how', hres⟩ := ih hnext
      refine ⟨m, by omega, d', ?_, how'.trans how, ?_⟩
      · rw [hd', hslots, shift_shift hm]
      · simp only [renameLoop, Io.andThen, hok]
        exact hres

/-- Opening fails and changes nothing, or it puts a fresh log into slot 0. -/
theorem openFile_cases (faults : Faults) (options : OpenOptions) (session : SessionId)
    (hempty : d.slots path 0 = none) :
    (∃ e, Fs.openFile faults options path session d = (.error e, d)) ∨
      ∃ d', Fs.openFile faults options path session d = (.ok (), d') ∧
        d'.overwritten = d.overwritten ∧ d'.slots path = put session (d.slots path) := by
  have hfile : d.files path = none := hempty
  unfold Fs.openFile
  simp only [hfile]
  split
  · exact .inl ⟨_, rfl⟩
  · split
    · exact .inl ⟨_, rfl⟩
    · split
      · refine .inr ⟨_, rfl, rfl, ?_⟩
        funext i
        have hpath : getBackupPathForIndex path i = path ↔ i = 0 :=
          getBackupPathForIndex_eq_iff (j := 0)
        simp only [Disk.slots, hpath, put]
      · exact .inl ⟨_, rfl⟩

/-- What a construction leaves behind. When its removal is refused nothing has happened.
Otherwise the logs from some slot on have moved up by one, and a successful construction,
which has moved them all, has put its own log in front. -/
theorem tryFromOptions_cases (faults : Faults) (path : OsString) (n : ℕ) (options : OpenOptions)
    (session : SessionId) (d : Disk) :
    let r := tryFromOptions faults path n options session d
    r.2.overwritten = d.overwritten ∧
      (faults (.removeFile (getBackupPathForIndex path n)) = true ∧ r = (.error .other, d) ∨
        faults (.removeFile (getBackupPathForIndex path n)) = false ∧
          ((∃ e, r.1 = .error e ∧ ∃ m ≤ n, r.2.slots path = shift m n (d.slots path)) ∨
            r.1 = .ok () ∧ r.2.slots path = put session (shift 0 n (d.slots path)))) := by
  intro r
  rcases removeIfPresent_cases faults path n d with ⟨hf, hr⟩ | ⟨hf, d₁, hr, how, hempty, hkeep⟩
  · have hr : r = (.error .other, d) := by
      simp only [r, tryFromOptions, rotate, Io.andThen, hr]
    exact ⟨by rw [hr], .inl ⟨hf, hr⟩⟩
  · obtain ⟨m, hm, d₂, hslots, how', ⟨hz, hl⟩ | ⟨e, hl⟩⟩ := renameLoop_cases faults hempty
    · subst m
      rw [shift_congr hm hkeep] at hslots
      have hempty₂ : d₂.slots path 0 = none := by rw [hslots, shift, if_pos rfl]
      have hrun : r = Fs.openFile faults options path session d₂ := by
        simp only [r, tryFromOptions, rotate, Io.andThen, hr, hl]
      rcases openFile_cases faults options session hempty₂ with ⟨e, ho⟩ | ⟨d₃, ho, how₃, hput⟩
      · rw [hrun, ho]
        exact ⟨how'.trans how, .inr ⟨hf, .inl ⟨e, rfl, 0, hm, hslots⟩⟩⟩
      · rw [hrun, ho]
        exact ⟨how₃.trans (how'.trans how), .inr ⟨hf, .inr ⟨rfl, by rw [hput, hslots]⟩⟩⟩
    · have hrun : r = (.error e, d₂) := by
        simp only [r, tryFromOptions, rotate, Io.andThen, hr, hl]
      rw [hrun]
      refine ⟨how'.trans how, .inr ⟨hf, .inl ⟨e, rfl, m, hm, ?_⟩⟩⟩
      rw [hslots, shift_congr hm hkeep]

end Insomnilog.Session
