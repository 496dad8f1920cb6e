import Mathlib.Data.Nat.Bitwise
import Mathlib.Tactic

/-! Fixed-width numbers as byte strings, in either byte order. -/

inductive ByteOrder where
  | little
  | big
  deriving DecidableEq, Repr

namespace ByteOrder

/-- The `n` least significant bytes of `x`, least significant first. -/
def littleBytes : ℕ → ℕ → List UInt8
  | 0, _ => []
  | n + 1, x => UInt8.ofNat x :: littleBytes n (x / 256)

def ofLittle : List UInt8 → ℕ
  | [] => 0
  | b :: bs => b.toNat + 256 * ofLittle bs

@[simp] theorem littleBytes_length (n x : ℕ) : (littleBytes n x).length = n := by
  induction n generalizing x with
  | zero => rfl
  | succ n ih => simp [littleBytes, ih]

theorem ofLittle_littleBytes (n x : ℕ) : ofLittle (littleBytes n x) = x % 256 ^ n := by
  induction n generalizing x with
  | zero => simp [littleBytes, ofLittle, Nat.mod_one]
  | succ n ih =>
    have hbyte : (UInt8.ofNat x).toNat = x % 256 := UInt8.toNat_ofNat'
    rw [littleBytes, ofLittle, ih, hbyte, pow_succ', Nat.mod_mul]

variable (o : ByteOrder)

/-- The `n` bytes of `v`, as an integer's `to_ne_bytes` gives them. -/
def toBytes {m : ℕ} (n : ℕ) (v : BitVec m) : List UInt8 :=
  match o with
  | .little => littleBytes n v.toNat
  | .big => (littleBytes n v.toNat).reverse

def ofBytes (m : ℕ) (bs : List UInt8) : BitVec m :=
  match o with
  | .little => BitVec.ofNat m (ofLittle bs)
  | .big => BitVec.ofNat m (ofLittle bs.reverse)

@[simp] theorem toBytes_length {m : ℕ} (n : ℕ) (v : BitVec m) : (o.toBytes n v).length = n := by
  cases o <;> simp [toBytes]

theorem ofBytes_toBytes {m n : ℕ} (h : m = 8 * n) (v : BitVec m) :
    o.ofBytes m (o.toBytes n v) = v := by
  have hpow : 256 ^ n = 2 ^ m := by
    rw [h, pow_mul]
    norm_num
  have hv : ofLittle (littleBytes n v.toNat) = v.toNat := by
    rw [ofLittle_littleBytes, hpow, Nat.mod_eq_of_lt v.isLt]
  cases o <;> simp [toBytes, ofBytes, hv]

end ByteOrder
