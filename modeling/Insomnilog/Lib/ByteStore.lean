import Mathlib.Data.List.Basic
import Mathlib.Tactic

/-! Byte memory as a list: slices, in-place replacement, and sequences of stores. -/
namespace ByteStore

/-- The bytes `[off, off + len)` of a memory. -/
def slice (mem : List UInt8) (off len : ℕ) : List UInt8 := (mem.drop off).take len

/-- Replace the bytes of `mem` from `off` on by `bytes`. -/
def splice (mem : List UInt8) (off : ℕ) (bytes : List UInt8) : List UInt8 :=
  mem.take off ++ bytes ++ mem.drop (off + bytes.length)

theorem slice_getElem? (mem : List UInt8) (off len i : ℕ) :
    (slice mem off len)[i]? = if i < len then mem[off + i]? else none := by
  simp only [slice, List.getElem?_take, List.getElem?_drop]

@[simp] theorem slice_length (mem : List UInt8) (off len : ℕ) :
    (slice mem off len).length = min len (mem.length - off) := by
  simp [slice]

theorem slice_length_of_le {mem : List UInt8} {off len : ℕ} (h : off + len ≤ mem.length) :
    (slice mem off len).length = len := by
  rw [slice_length]
  omega

/-- Slices of two memories agree when the memories agree on the sliced range. -/
theorem slice_congr {mem mem' : List UInt8} {off len : ℕ}
    (h : ∀ i, off ≤ i → i < off + len → mem[i]? = mem'[i]?) :
    slice mem off len = slice mem' off len := by
  apply List.ext_getElem?
  intro i
  simp only [slice_getElem?]
  split
  · exact h (off + i) (by omega) (by omega)
  · rfl

theorem slice_set_outside {mem : List UInt8} {off len j : ℕ} {b : UInt8}
    (h : ¬ (off ≤ j ∧ j < off + len)) : slice (mem.set j b) off len = slice mem off len := by
  apply slice_congr
  intro i h₁ h₂
  have hne : j ≠ i := by
    rintro rfl
    exact h ⟨h₁, h₂⟩
  exact List.getElem?_set_ne hne

theorem slice_set_inside {mem : List UInt8} {off len i : ℕ} {b : UInt8} :
    slice (mem.set (off + i) b) off len = (slice mem off len).set i b := by
  apply List.ext_getElem?
  intro j
  simp only [slice_getElem?, List.getElem?_set, slice_length]
  by_cases hj : i = j
  · subst j
    simp only [↓reduceIte]
    grind
  · simp [hj]

theorem slice_take {mem : List UInt8} {off len n : ℕ} (h : n ≤ len) :
    (slice mem off len).take n = slice mem off n := by
  simp [slice, List.take_take, Nat.min_eq_left h]

@[simp] theorem splice_length {mem bytes : List UInt8} {off : ℕ}
    (h : off + bytes.length ≤ mem.length) : (splice mem off bytes).length = mem.length := by
  simp only [splice, List.length_append, List.length_take, List.length_drop]
  omega

theorem splice_getElem? {mem bytes : List UInt8} {off : ℕ} (h : off + bytes.length ≤ mem.length)
    (i : ℕ) : (splice mem off bytes)[i]? =
      if off ≤ i ∧ i < off + bytes.length then bytes[i - off]? else mem[i]? := by
  simp only [splice, List.getElem?_append, List.length_append, List.length_take,
    List.getElem?_take, List.getElem?_drop]
  have hmin : min off mem.length = off := by omega
  rw [hmin]
  grind

theorem slice_splice_self {mem bytes : List UInt8} {off : ℕ}
    (h : off + bytes.length ≤ mem.length) :
    slice (splice mem off bytes) off bytes.length = bytes := by
  apply List.ext_getElem?
  intro i
  rw [slice_getElem?, splice_getElem? h]
  grind

theorem slice_splice_outside {mem bytes : List UInt8} {off off' len : ℕ}
    (h : off + bytes.length ≤ mem.length)
    (hd : ∀ i, off ≤ i → i < off + bytes.length → off' ≤ i → i < off' + len → False) :
    slice (splice mem off bytes) off' len = slice mem off' len := by
  apply slice_congr
  intro i h₁ h₂
  rw [splice_getElem? h, if_neg]
  rintro ⟨h₃, h₄⟩
  exact hd i h₃ h₄ h₁ h₂

/-- A sequence of single-byte stores, each an address and a byte. -/
abbrev Stores := List (ℕ × UInt8)

/-- Perform stores in order; a store outside the memory changes nothing. -/
def applyStores (mem : List UInt8) : Stores → List UInt8
  | [] => mem
  | (a, b) :: rest => applyStores (mem.set a b) rest

/-- The stores of a copy of `bytes` to `dst`. -/
def storesAt (dst : ℕ) : List UInt8 → Stores
  | [] => []
  | b :: bytes => (dst, b) :: storesAt (dst + 1) bytes

@[simp] theorem storesAt_length (dst : ℕ) (bytes : List UInt8) :
    (storesAt dst bytes).length = bytes.length := by
  induction bytes generalizing dst with
  | nil => rfl
  | cons b bytes ih => simp [storesAt, ih]

theorem storesAt_append (dst : ℕ) (bytes bytes' : List UInt8) :
    storesAt dst (bytes ++ bytes') =
      storesAt dst bytes ++ storesAt (dst + bytes.length) bytes' := by
  induction bytes generalizing dst with
  | nil => rfl
  | cons b bytes ih =>
    simp only [List.cons_append, storesAt, ih, List.length_cons]
    congr 3
    omega

/-- The addresses of a copy are exactly the bytes of its destination range. -/
theorem mem_storesAt {dst a : ℕ} {b : UInt8} {bytes : List UInt8} :
    (a, b) ∈ storesAt dst bytes ↔ dst ≤ a ∧ bytes[a - dst]? = some b := by
  induction bytes generalizing dst with
  | nil => simp [storesAt]
  | cons c bytes ih =>
    simp only [storesAt, List.mem_cons, Prod.mk.injEq, ih]
    constructor
    · rintro (⟨rfl, rfl⟩ | ⟨hle, hb⟩)
      · simp
      · have he : a - dst = a - (dst + 1) + 1 := by omega
        exact ⟨by omega, by rw [he, List.getElem?_cons_succ]; exact hb⟩
    · rintro ⟨hle, hb⟩
      by_cases he : a = dst
      · subst a
        left
        simpa using hb.symm
      · right
        have he : a - dst = a - (dst + 1) + 1 := by omega
        rw [he, List.getElem?_cons_succ] at hb
        exact ⟨by omega, hb⟩

theorem lt_of_mem_storesAt {dst : ℕ} {bytes : List UInt8} {p : ℕ × UInt8}
    (h : p ∈ storesAt dst bytes) : p.1 < dst + bytes.length := by
  obtain ⟨hle, hb⟩ := mem_storesAt.mp h
  have := (List.getElem?_eq_some_iff.mp hb).choose
  omega

/-- A copy that stays inside the memory replaces exactly its destination range. -/
theorem applyStores_storesAt {mem bytes : List UInt8} {dst : ℕ}
    (h : dst + bytes.length ≤ mem.length) :
    applyStores mem (storesAt dst bytes) = splice mem dst bytes := by
  induction bytes generalizing mem dst with
  | nil => simp [storesAt, applyStores, splice]
  | cons b bytes ih =>
    rw [List.length_cons] at h
    rw [storesAt, applyStores, ih (by rw [List.length_set]; omega)]
    apply List.ext_getElem?
    intro i
    rw [splice_getElem? (by rw [List.length_set]; omega),
      splice_getElem? (by rw [List.length_cons]; omega), List.length_cons, List.getElem?_set]
    by_cases hi : i = dst
    · subst i
      simp only [Nat.sub_self, List.getElem?_cons_zero]
      grind
    · have hi' : dst ≠ i := fun he => hi he.symm
      rw [if_neg hi']
      by_cases hr : dst + 1 ≤ i ∧ i < dst + 1 + bytes.length
      · have he : i - dst = i - (dst + 1) + 1 := by omega
        rw [if_pos hr, if_pos (by omega), he, List.getElem?_cons_succ]
      · rw [if_neg hr, if_neg (by omega)]

/-- A copy that covers the whole memory leaves exactly the copied bytes. -/
theorem applyStores_storesAt_zero {mem bytes : List UInt8} (h : bytes.length = mem.length) :
    applyStores mem (storesAt 0 bytes) = bytes := by
  rw [applyStores_storesAt (by omega)]
  simp [splice, h]

end ByteStore
