import Mathlib.Data.Nat.ModEq
import Mathlib.Tactic

/-! Unbounded stream positions, their machine-word images, and the offsets they
take in a ring of power-of-two size. -/
namespace RingPosition

/-- Subtracting two wrapped positions recovers their true distance, as long as
that distance itself fits the word. -/
theorem ofNat_sub_toNat {w x y : ℕ} (h : y ≤ x) (hlt : x - y < 2 ^ w) :
    (BitVec.ofNat w x - BitVec.ofNat w y).toNat = x - y := by
  have hsub : BitVec.ofNat w x - BitVec.ofNat w y = BitVec.ofNat w (x - y) := by
    obtain ⟨d, rfl⟩ := Nat.exists_eq_add_of_le h
    rw [Nat.add_sub_cancel_left, BitVec.ofNat_add, BitVec.add_comm, BitVec.add_sub_cancel]
  rw [hsub, BitVec.toNat_ofNat, Nat.mod_eq_of_lt hlt]

/-- Masking a wrapped position gives its residue modulo the ring size. -/
theorem and_mask_toNat {w k x : ℕ} {mask : BitVec w} (hk : k < w)
    (hmask : mask.toNat = 2 ^ k - 1) :
    (BitVec.ofNat w x &&& mask).toNat = x % 2 ^ k := by
  rw [BitVec.toNat_and, BitVec.toNat_ofNat, hmask, Nat.and_two_pow_sub_one_eq_mod,
    Nat.mod_mod_of_dvd _ (pow_dvd_pow 2 hk.le)]

/-- Moving forward by at most one lap crosses the end of the ring at most once. -/
theorem offset_add {C : ℕ} (hC : 0 < C) (p : ℕ) {d : ℕ} (hd : d ≤ C) :
    (p + d) % C = p % C + d ∧ p % C + d < C ∨
      C ≤ p % C + d ∧ (p + d) % C = p % C + d - C := by
  have hp := Nat.mod_lt p hC
  have he : (p + d) % C = (p % C + d) % C := (Nat.mod_add_mod p C d).symm
  rw [he]
  by_cases hlt : p % C + d < C
  · exact Or.inl ⟨Nat.mod_eq_of_lt hlt, hlt⟩
  · have hle : C ≤ p % C + d := Nat.le_of_not_lt hlt
    refine Or.inr ⟨hle, ?_⟩
    rw [Nat.mod_eq_sub_mod hle, Nat.mod_eq_of_lt (by omega)]

/-- Half-open byte ranges given by start and length. -/
def Disjoint (off len off' len' : ℕ) : Prop :=
  ∀ i, off ≤ i → i < off + len → off' ≤ i → i < off' + len' → False

theorem Disjoint.symm {off len off' len' : ℕ} (h : Disjoint off len off' len') :
    Disjoint off' len' off len := fun i h₁ h₂ h₃ h₄ => h i h₃ h₄ h₁ h₂

theorem Disjoint.mono_right {off len off' len' len'' : ℕ} (h : Disjoint off len off' len')
    (hle : len'' ≤ len') : Disjoint off len off' len'' :=
  fun i h₁ h₂ h₃ h₄ => h i h₁ h₂ h₃ (h₄.trans_le (Nat.add_le_add_left hle _))

/-- Two pieces of a stream that lie inside one window of ring size do not overlap
in the ring, although only their starts are reduced and neither piece is split. -/
theorem disjoint_of_window {C p n p' n' : ℕ} (hC : 0 < C) (horder : p + n ≤ p')
    (hwindow : p' + n' ≤ p + C) : Disjoint (p % C) n (p' % C) n' := by
  obtain ⟨d, rfl⟩ := Nat.exists_eq_add_of_le ((Nat.le_add_right p n).trans horder)
  rcases offset_add hC p (show d ≤ C by omega) with ⟨he, _⟩ | ⟨hle, he⟩
  all_goals
    intro i h₁ h₂ h₃ h₄
    rw [he] at h₃ h₄
    omega

/-- A piece no longer than the ring fits twice the ring size, wherever it starts. -/
theorem fits_twice {C n : ℕ} (hC : 0 < C) (p : ℕ) (hn : n ≤ C) : p % C + n ≤ 2 * C := by
  have := Nat.mod_lt p hC
  omega

end RingPosition
