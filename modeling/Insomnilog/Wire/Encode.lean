import Insomnilog.Lib.ByteOrder
import Insomnilog.Lib.ByteStore

/-! Binary encoding of log arguments: a tag byte followed by the value in native
byte order. Encoders are the byte stores they perform from a destination on. -/
namespace Insomnilog.Wire
open ByteStore

inductive PointerWidth where
  | w32
  | w64
  deriving DecidableEq, Repr

/-- What the code depends on of the machine and the build. -/
structure Target where
  pointer : PointerWidth
  order : ByteOrder
  /-- A build with debug assertions and overflow checks. -/
  checks : Bool
  deriving DecidableEq, Repr

namespace Target

/-- `size_of::<usize>()`. -/
def ptrBytes (t : Target) : ℕ :=
  match t.pointer with
  | .w32 => 4
  | .w64 => 8

def bits (t : Target) : ℕ := 8 * t.ptrBytes

/-- A `usize` used as an address, or the bits of a function pointer. -/
abbrev Ptr (t : Target) := BitVec t.bits

/-- A 32-bit length always fits `usize`. -/
theorem pow_le_pow_bits (t : Target) : 2 ^ 32 ≤ 2 ^ t.bits := by
  apply Nat.pow_le_pow_right (by norm_num)
  unfold bits ptrBytes
  split <;> norm_num

end Target

inductive TypeTag where
  | i8 | i16 | i32 | i64 | i128
  | u8 | u16 | u32 | u64 | u128
  | f32 | f64
  | bool
  | str
  | usize
  | isize
  | custom
  deriving DecidableEq, Repr

namespace TypeTag

/-- The discriminant. -/
def toByte : TypeTag → UInt8
  | i8 => 0
  | i16 => 1
  | i32 => 2
  | i64 => 3
  | i128 => 4
  | u8 => 5
  | u16 => 6
  | u32 => 7
  | u64 => 8
  | u128 => 9
  | f32 => 10
  | f64 => 11
  | bool => 12
  | str => 13
  | usize => 14
  | isize => 15
  | custom => 16

def tryFrom (value : UInt8) : Option TypeTag :=
  if value = 0 then some i8
  else if value = 1 then some i16
  else if value = 2 then some i32
  else if value = 3 then some i64
  else if value = 4 then some i128
  else if value = 5 then some u8
  else if value = 6 then some u16
  else if value = 7 then some u32
  else if value = 8 then some u64
  else if value = 9 then some u128
  else if value = 10 then some f32
  else if value = 11 then some f64
  else if value = 12 then some bool
  else if value = 13 then some str
  else if value = 14 then some usize
  else if value = 15 then some isize
  else if value = 16 then some custom
  else none

@[simp] theorem tryFrom_toByte (tag : TypeTag) : tryFrom tag.toByte = some tag := by
  cases tag <;> decide

end TypeTag

/-- The UTF-8 bytes of a string. -/
def utf8 (s : String) : List UInt8 := s.toByteArray.data.toList

/-- A value of a `CustomEncode` type: its decoder's address, and what its methods
return. `writes_exactly` is the first safety condition of the trait. -/
structure CustomArg (t : Target) where
  decoder : t.Ptr
  payloadSize : ℕ
  payload : List UInt8
  writes_exactly : payload.length = payloadSize
  deriving DecidableEq

/-- The values that can be logged. Integers and floats are their bits. -/
inductive Arg (t : Target) where
  | i8 (v : BitVec 8)
  | i16 (v : BitVec 16)
  | i32 (v : BitVec 32)
  | i64 (v : BitVec 64)
  | i128 (v : BitVec 128)
  | u8 (v : BitVec 8)
  | u16 (v : BitVec 16)
  | u32 (v : BitVec 32)
  | u64 (v : BitVec 64)
  | u128 (v : BitVec 128)
  | f32 (v : BitVec 32)
  | f64 (v : BitVec 64)
  | bool (v : Bool)
  | str (v : String)
  | usize (v : BitVec t.bits)
  | isize (v : BitVec t.bits)
  | custom (c : CustomArg t)
  deriving DecidableEq

variable {t : Target}

/-- `impl_encode_ne_bytes!`: the tag, then the `n` bytes of the (cast) value. -/
def encodeNeBytes {m : ℕ} (t : Target) (tag : TypeTag) (n : ℕ) (v : BitVec m) (dst : ℕ) : Stores :=
  (dst, tag.toByte) :: storesAt (dst + 1) (t.order.toBytes n v)

/-- A length as the four bytes of its `u32` cast. -/
def lenBytes (t : Target) (len : ℕ) : List UInt8 := t.order.toBytes 4 (BitVec.ofNat 32 len)

namespace Arg

/-- `TAG` of the value's type. -/
def tag : Arg t → TypeTag
  | i8 _ => .i8
  | i16 _ => .i16
  | i32 _ => .i32
  | i64 _ => .i64
  | i128 _ => .i128
  | u8 _ => .u8
  | u16 _ => .u16
  | u32 _ => .u32
  | u64 _ => .u64
  | u128 _ => .u128
  | f32 _ => .f32
  | f64 _ => .f64
  | bool _ => .bool
  | str _ => .str
  | usize _ => .usize
  | isize _ => .isize
  | custom _ => .custom

def encodedSize : Arg t → ℕ
  | i8 _ => 1 + 1
  | i16 _ => 1 + 2
  | i32 _ => 1 + 4
  | i64 _ => 1 + 8
  | i128 _ => 1 + 16
  | u8 _ => 1 + 1
  | u16 _ => 1 + 2
  | u32 _ => 1 + 4
  | u64 _ => 1 + 8
  | u128 _ => 1 + 16
  | f32 _ => 1 + 4
  | f64 _ => 1 + 8
  | bool _ => 2
  | str s => 1 + 4 + (utf8 s).length
  | usize _ => 1 + 8
  | isize _ => 1 + 8
  | custom c => 1 + t.ptrBytes + 4 + c.payloadSize

/-- The stores of `encode_to(dst)`, in order. -/
def encodeTo (dst : ℕ) : Arg t → Stores
  | i8 v => encodeNeBytes t .i8 1 v dst
  | i16 v => encodeNeBytes t .i16 2 v dst
  | i32 v => encodeNeBytes t .i32 4 v dst
  | i64 v => encodeNeBytes t .i64 8 v dst
  | i128 v => encodeNeBytes t .i128 16 v dst
  | u8 v => encodeNeBytes t .u8 1 v dst
  | u16 v => encodeNeBytes t .u16 2 v dst
  | u32 v => encodeNeBytes t .u32 4 v dst
  | u64 v => encodeNeBytes t .u64 8 v dst
  | u128 v => encodeNeBytes t .u128 16 v dst
  | f32 v => encodeNeBytes t .f32 4 v dst
  | f64 v => encodeNeBytes t .f64 8 v dst
  | bool b => [(dst, TypeTag.bool.toByte), (dst + 1, if b then 1 else 0)]
  | str s =>
      (dst, TypeTag.str.toByte) :: storesAt (dst + 1) (lenBytes t (utf8 s).length) ++
        (if 0 < (utf8 s).length then storesAt (dst + 5) (utf8 s) else [])
  | usize v => encodeNeBytes t .usize 8 (v.setWidth 64) dst
  | isize v => encodeNeBytes t .isize 8 (v.signExtend 64) dst
  | custom c =>
      (dst, TypeTag.custom.toByte) :: storesAt (dst + 1) (t.order.toBytes t.ptrBytes c.decoder) ++
        storesAt (dst + 1 + t.ptrBytes) (lenBytes t c.payloadSize) ++
        storesAt (dst + 1 + t.ptrBytes + 4) c.payload

/-- The debug assertion of the custom `encode_to`: the payload length fits `u32`. -/
def assertFails : Arg t → Bool
  | custom c => t.checks && decide (2 ^ 32 ≤ c.payloadSize)
  | _ => false

/-- What follows the tag byte. -/
def body : Arg t → List UInt8
  | i8 v => t.order.toBytes 1 v
  | i16 v => t.order.toBytes 2 v
  | i32 v => t.order.toBytes 4 v
  | i64 v => t.order.toBytes 8 v
  | i128 v => t.order.toBytes 16 v
  | u8 v => t.order.toBytes 1 v
  | u16 v => t.order.toBytes 2 v
  | u32 v => t.order.toBytes 4 v
  | u64 v => t.order.toBytes 8 v
  | u128 v => t.order.toBytes 16 v
  | f32 v => t.order.toBytes 4 v
  | f64 v => t.order.toBytes 8 v
  | bool b => [if b then 1 else 0]
  | str s => lenBytes t (utf8 s).length ++ utf8 s
  | usize v => t.order.toBytes 8 (v.setWidth 64)
  | isize v => t.order.toBytes 8 (v.signExtend 64)
  | custom c => t.order.toBytes t.ptrBytes c.decoder ++ lenBytes t c.payloadSize ++ c.payload

/-- The bytes `encode_to` leaves at its destination. -/
def encoding (a : Arg t) : List UInt8 := a.tag.toByte :: a.body

end Arg

@[simp] theorem lenBytes_length (t : Target) (len : ℕ) : (lenBytes t len).length = 4 := by
  simp [lenBytes]

namespace Arg

theorem encoding_length (a : Arg t) : a.encoding.length = a.encodedSize := by
  cases a <;>
    simp only [encoding, body, encodedSize, List.length_cons, List.length_append, List.length_nil,
      ByteOrder.toBytes_length, lenBytes_length, CustomArg.writes_exactly]
  all_goals omega

/-- Every encoder stores its encoding once, in order, and nothing else. -/
theorem encodeTo_eq (a : Arg t) (dst : ℕ) : a.encodeTo dst = storesAt dst a.encoding := by
  cases a with
  | str s =>
    simp only [encodeTo, encoding, body, tag, storesAt, storesAt_append, lenBytes_length,
      List.cons_append]
    by_cases h : 0 < (utf8 s).length
    · rw [if_pos h]
    · have hnil : utf8 s = [] := List.eq_nil_of_length_eq_zero (by omega)
      rw [if_neg h, hnil]
      rfl
  | custom c =>
    simp only [encodeTo, encoding, body, tag, storesAt, storesAt_append, lenBytes_length,
      ByteOrder.toBytes_length, List.cons_append, List.append_assoc, Nat.add_assoc]
  | _ => rfl

theorem encodedSize_pos (a : Arg t) : 0 < a.encodedSize := by
  rw [← encoding_length]
  exact Nat.succ_pos _

end Arg
end Insomnilog.Wire
