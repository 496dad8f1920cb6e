import Mathlib.Data.BitVec
import Insomnilog.Queue.Spsc

/-! Which requested capacities `queue::new` rounds, doubles and allocates as intended, with
and without overflow checks. -/
namespace Insomnilog.Queue
open RingPosition

variable {w : ℕ} {capacity : BitVec w} {checks : Bool}

/-- What every later access to the buffer of `q` relies on, for a request of `capacity`. -/
structure SafeFor (capacity : BitVec w) (q : Spsc w) : Prop where
  power : ∃ k, q.inner.capacity.toNat = 2 ^ k
  request : capacity.toNat ≤ q.inner.capacity.toNat
  mask : q.inner.mask.toNat = q.inner.capacity.toNat - 1
  buf : q.inner.buf.length = 2 * q.inner.capacity.toNat
  fits : ∀ write n : BitVec w, n ≤ q.inner.capacity →
    (write &&& q.inner.mask).toNat + n.toNat ≤ q.inner.buf.length

/-- `new` panics or returns a safe queue, and panics if rounding up overflows. -/
structure NewSound (checks : Bool) (capacity : BitVec w) : Prop where
  safe : ∀ q, new checks capacity = some q → SafeFor capacity q
  overflow : 2 ^ w ≤ roundUp capacity.toNat → new checks capacity = none

/-- Rounding up does not pass a power of two. -/
theorem roundUp_le {n m : ℕ} (h : n ≤ 2 ^ m) : roundUp n ≤ 2 ^ m := by
  unfold roundUp
  split
  · exact Nat.one_le_two_pow
  next hn =>
    apply Nat.pow_le_pow_right (by norm_num)
    have hlog : (n - 1).log2 < m := (Nat.log2_lt (by omega)).mpr (by omega)
    omega

/-- A queue whose doubled capacity does not wrap is safe. -/
theorem safe_of_fits {q : Spsc w} (hnew : new checks capacity = some q)
    (hfit : 2 * roundUp capacity.toNat < 2 ^ w) : SafeFor capacity q := by
  obtain ⟨k, hk, hg, -⟩ := new_spec hnew hfit
  refine
    { power := ⟨k, hg.capacity⟩
      request := ?_
      mask := by rw [hg.mask, hg.capacity]
      buf := by rw [hg.buf, hg.capacity]
      fits := fun write n hn => ?_ }
  · rw [hg.capacity, ← hk]
    exact le_roundUp _
  · have hn : n.toNat ≤ 2 ^ k := by
      rw [← hg.capacity]
      exact hn
    have hoff : (write &&& q.inner.mask).toNat = write.toNat % 2 ^ k := by
      rw [BitVec.toNat_and, hg.mask, Nat.and_two_pow_sub_one_eq_mod]
    rw [hoff, hg.buf]
    exact fits_twice (Nat.two_pow_pos k) _ hn

/-- Without overflow checks, a request for more than a quarter of the address space makes the
doubled capacity wrap to zero, so that the queue has no buffer at all. -/
theorem new_wraps (h : 2 ^ w < 4 * capacity.toNat) :
    ∃ q, new false capacity = some q ∧ q.inner.buf = [] := by
  have hne : capacity ≠ 0 := by
    rintro rfl
    have := Nat.two_pow_pos w
    simp at h
  have hcap := capacity.isLt
  obtain ⟨m, rfl⟩ : ∃ m, w = m + 1 := by
    cases w with
    | zero => exact absurd (BitVec.of_length_zero (x := capacity)) hne
    | succ m => exact ⟨m, rfl⟩
  -- either the rounded capacity has wrapped already, or it is half the address space
  obtain ⟨rounded, hrounded, hdouble⟩ : ∃ rounded : BitVec (m + 1),
      nextPowerOfTwo false capacity = some rounded ∧ 2 * rounded = 0 := by
    unfold nextPowerOfTwo
    split
    next hlt =>
      obtain ⟨k, hk⟩ := roundUp_eq_two_pow capacity.toNat
      have hle := le_roundUp capacity.toNat
      rw [hk] at hlt hle
      have hkm : k < m + 1 := (Nat.pow_lt_pow_iff_right (by norm_num)).mp hlt
      have hmk : m + 1 < k + 2 := by
        refine (Nat.pow_lt_pow_iff_right (a := 2) (by norm_num)).mp ?_
        rw [pow_add 2 k 2]
        omega
      obtain rfl : k = m := by omega
      refine ⟨_, rfl, ?_⟩
      calc 2 * BitVec.ofNat (k + 1) (roundUp capacity.toNat)
          = BitVec.ofNat (k + 1) (2 * 2 ^ k) := by rw [hk, BitVec.ofNat_mul]; rfl
        _ = 0 := by
          apply BitVec.eq_of_toNat_eq
          rw [BitVec.toNat_ofNat, ← pow_succ', Nat.mod_self]
          rfl
    next => exact ⟨0, rfl, BitVec.mul_zero⟩
  have hlen : double false rounded = some 0 := by
    rw [double, Bool.false_and, if_neg (by decide), hdouble]
  have hbuf : zeroed (0 : BitVec (m + 1)) = some [] := if_pos (Nat.two_pow_pos m)
  refine ⟨⟨⟨[], rounded, rounded - 1, 0, 0⟩, ⟨0, 0⟩, ⟨0, 0⟩⟩, ?_, rfl⟩
  unfold new
  rw [if_neg hne, hrounded]
  simp only [Option.bind_eq_bind, Option.bind_some, hlen, hbuf]

theorem not_sound_of_wraps (h : 2 ^ w < 4 * capacity.toNat) : ¬ NewSound false capacity := by
  intro hsound
  obtain ⟨q, hnew, hbuf⟩ := new_wraps h
  have hsafe := hsound.safe q hnew
  obtain ⟨k, hk⟩ := hsafe.power
  have hlen : 0 = 2 * 2 ^ k := by
    calc 0 = q.inner.buf.length := by rw [hbuf]; rfl
      _ = 2 * q.inner.capacity.toNat := hsafe.buf
      _ = 2 * 2 ^ k := by rw [hk]
  have := Nat.two_pow_pos k
  omega

/-- With overflow checks `new` is sound for every request. -/
theorem new_sound_checked (capacity : BitVec w) : NewSound true capacity := by
  have hround {rounded : BitVec w} (h : nextPowerOfTwo true capacity = some rounded) :
      rounded.toNat = roundUp capacity.toNat := by
    unfold nextPowerOfTwo at h
    split at h
    next hlt =>
      obtain rfl := Option.some.inj h
      rw [BitVec.toNat_ofNat, Nat.mod_eq_of_lt hlt]
    next => cases h
  refine ⟨fun q hnew => safe_of_fits hnew ?_, fun hover => ?_⟩
  · unfold new at hnew
    split at hnew
    · cases hnew
    · obtain ⟨rounded, hrounded, hnew⟩ := Option.bind_eq_some_iff.mp hnew
      obtain ⟨len, hlen, -⟩ := Option.bind_eq_some_iff.mp hnew
      rw [← hround hrounded]
      by_contra hge
      have hpanic : double true rounded = none := if_pos (by simpa using hge)
      rw [hpanic] at hlen
      cases hlen
  · have hpanic : nextPowerOfTwo true capacity = none := by
      rw [nextPowerOfTwo, if_neg (by omega), if_pos rfl]
    unfold new
    split
    · rfl
    · rw [hpanic]
      rfl

/-- Without overflow checks `new` is sound for a request if and only if four times the request
does not pass the end of the address space. -/
theorem new_sound_iff (capacity : BitVec w) :
    NewSound false capacity ↔ 4 * capacity.toNat ≤ 2 ^ w := by
  constructor
  · intro h
    by_contra hgt
    exact not_sound_of_wraps (Nat.lt_of_not_le hgt) h
  · intro h
    by_cases hzero : capacity = 0
    · have hnone : new false capacity = none := if_pos hzero
      exact ⟨fun q hq => (by rw [hnone] at hq; cases hq), fun _ => hnone⟩
    · have hpos : 0 < capacity.toNat := by
        by_contra hn
        exact hzero (BitVec.eq_of_toNat_eq (by simpa using hn))
      have hwide : 2 ≤ w := by
        refine (Nat.pow_le_pow_iff_right (a := 2) (by norm_num)).mp ?_
        omega
      obtain ⟨m, rfl⟩ := Nat.exists_eq_add_of_le' hwide
      have hpow : 2 ^ (m + 2) = 4 * 2 ^ m := by ring
      have hround : roundUp capacity.toNat ≤ 2 ^ m := roundUp_le (by omega)
      have := Nat.two_pow_pos m
      exact ⟨fun q hq => safe_of_fits hq (by omega), fun hover => by omega⟩

/-- Half the address space is a power of two, but twice that is no `usize`; one byte more does
not even round up. Both requests are answered with a queue that has no buffer. -/
theorem large_request_gets_no_buffer :
    (new false (2 ^ 63 : BitVec 64)).map (fun q => (q.inner.capacity, q.inner.mask, q.inner.buf)) =
        some (2 ^ 63, 2 ^ 63 - 1, []) ∧
      ¬ NewSound false (2 ^ 63 : BitVec 64) ∧
      (new false (2 ^ 63 + 1 : BitVec 64)).map
          (fun q => (q.inner.capacity, q.inner.mask, q.inner.buf)) = some (0, 2 ^ 64 - 1, []) ∧
      ¬ NewSound false (2 ^ 63 + 1 : BitVec 64) :=
  ⟨by decide +kernel, not_sound_of_wraps (by decide +kernel), by decide +kernel,
    not_sound_of_wraps (by decide +kernel)⟩

end Insomnilog.Queue
