import Insomnilog.Wire.Decode

/-! The decoder undoes the encoder, for single arguments and for whole records. -/
namespace Insomnilog.Wire
open ByteStore

variable {t : Target}

/-- The value `decode_one` reports for an argument, given the user's decoders. -/
def Arg.decoded (dec : Decoders t) : Arg t → Decoded DecodedArg
  | i8 v => .ok (.i8 v)
  | i16 v => .ok (.i16 v)
  | i32 v => .ok (.i32 v)
  | i64 v => .ok (.i64 v)
  | i128 v => .ok (.i128 v)
  | u8 v => .ok (.u8 v)
  | u16 v => .ok (.u16 v)
  | u32 v => .ok (.u32 v)
  | u64 v => .ok (.u64 v)
  | u128 v => .ok (.u128 v)
  | f32 v => .ok (.f32 v)
  | f64 v => .ok (.f64 v)
  | bool v => .ok (.bool v)
  | str v => .ok (.str v)
  | usize v => .ok (.usize (v.setWidth 64))
  | isize v => .ok (.isize (v.signExtend 64))
  | custom c => ((dec c.decoder c.payload).mapErr fun _ => .decoderFailed).map .custom

/-- The length prefix, where there is one, does not truncate. -/
def Arg.LenFits : Arg t → Prop
  | str s => (utf8 s).length < 2 ^ 32
  | custom c => c.payloadSize < 2 ^ 32
  | _ => True

theorem Arg.LenFits.of_size {a : Arg t} (h : a.encodedSize < 2 ^ 32) : a.LenFits := by
  cases a <;> simp only [LenFits, encodedSize] at h ⊢
  all_goals omega

theorem slice_append_left (xs ys : List UInt8) (n : ℕ) (h : n = xs.length) :
    slice (xs ++ ys) 0 n = xs := by
  subst n
  simp [slice]

theorem slice_append_right (xs ys : List UInt8) (off n : ℕ) (h : off = xs.length) :
    slice (xs ++ ys) off n = slice ys 0 n := by
  subst off
  simp [slice]

theorem Target.add_of_lt {ε : Type*} {a b : ℕ} (h : a + b < 2 ^ t.bits) :
    (t.add a b : Outcome ε ℕ) = .ok (a + b) := if_pos h

theorem range_of_le {ε : Type*} {data : List UInt8} {first last : ℕ} (h₁ : first ≤ last)
    (h₂ : last ≤ data.length) :
    (range data first last : Outcome ε (List UInt8)) = .ok (slice data first (last - first)) :=
  if_pos ⟨h₁, h₂⟩

@[simp] theorem ofBytes_lenBytes {len : ℕ} (h : len < 2 ^ 32) :
    (t.order.ofBytes 32 (lenBytes t len)).toNat = len := by
  rw [lenBytes, ByteOrder.ofBytes_toBytes _ (by rfl), BitVec.toNat_ofNat, Nat.mod_eq_of_lt h]

theorem readLen_append {len : ℕ} (h : len < 2 ^ 32) (pre rest : List UInt8) (off : ℕ)
    (hoff : off = pre.length) : readLen t (pre ++ (lenBytes t len ++ rest)) off = len := by
  rw [readLen, slice_append_right _ _ _ _ hoff, slice_append_left _ _ _ (by simp),
    ofBytes_lenBytes h]

theorem fromUTF8_utf8 (s : String) : String.fromUTF8? ⟨(utf8 s).toArray⟩ = some s := by
  rw [utf8, Array.toArray_toList]
  exact dif_pos s.isValidUTF8

theorem decodeFixed_append {bytes : List UInt8} (rest : List UInt8) (n : ℕ)
    (make : List UInt8 → DecodedArg) (h : bytes.length = n) :
    decodeFixed n (bytes ++ rest) make = .ok (make bytes, 1 + n) := by
  rw [decodeFixed, if_neg (by rw [List.length_append]; omega), ← h, List.take_left]

theorem decodeStr_append (s : String) (rest : List UInt8) (hlen : (utf8 s).length < 2 ^ 32)
    (hfit : 1 + 4 + (utf8 s).length < 2 ^ t.bits) :
    decodeStr t (lenBytes t (utf8 s).length ++ utf8 s ++ rest) =
      .ok (.str s, 1 + 4 + (utf8 s).length) := by
  have hread : readLen t (lenBytes t (utf8 s).length ++ utf8 s ++ rest) 0 = (utf8 s).length := by
    simpa using readLen_append (t := t) hlen [] (utf8 s ++ rest) 0 rfl
  have hsl : slice (lenBytes t (utf8 s).length ++ utf8 s ++ rest) 4 (utf8 s).length = utf8 s := by
    rw [List.append_assoc, slice_append_right _ _ _ _ (by simp), slice_append_left _ _ _ rfl]
  have htot : (lenBytes t (utf8 s).length ++ utf8 s ++ rest).length =
      4 + (utf8 s).length + rest.length := by simp [Nat.add_assoc]
  have hadd : (t.add 4 (utf8 s).length : Decoded ℕ) = .ok (4 + (utf8 s).length) :=
    Target.add_of_lt (by omega)
  have hadd' : (t.add (1 + 4) (utf8 s).length : Decoded ℕ) = .ok (1 + 4 + (utf8 s).length) :=
    Target.add_of_lt hfit
  rw [decodeStr, if_neg (by omega)]
  simp only [hread, hadd, Outcome.bind_eq, Outcome.ok_bind]
  rw [if_neg (by omega), range_of_le (by omega) (by omega)]
  simp only [Nat.add_sub_cancel_left, hsl, Outcome.ok_bind, fromUTF8_utf8, hadd',
    Outcome.pure_eq]

theorem decodeCustom_append (dec : Decoders t) (c : CustomArg t) (rest : List UInt8)
    (hlen : c.payloadSize < 2 ^ 32) (hfit : 1 + t.ptrBytes + 4 + c.payloadSize < 2 ^ t.bits) :
    decodeCustom t dec (t.order.toBytes t.ptrBytes c.decoder ++ lenBytes t c.payloadSize ++
        c.payload ++ rest) =
      ((Arg.custom c).decoded dec).map (·, 1 + t.ptrBytes + 4 + c.payloadSize) := by
  have hpl := c.writes_exactly
  have hassoc : t.order.toBytes t.ptrBytes c.decoder ++ lenBytes t c.payloadSize ++ c.payload ++
      rest = t.order.toBytes t.ptrBytes c.decoder ++
        (lenBytes t c.payloadSize ++ (c.payload ++ rest)) := by
    simp only [List.append_assoc]
  rw [hassoc]
  set data := t.order.toBytes t.ptrBytes c.decoder ++
    (lenBytes t c.payloadSize ++ (c.payload ++ rest)) with hdata
  have hread : readLen t data t.ptrBytes = c.payloadSize := readLen_append hlen _ _ _ (by simp)
  have hptr : t.order.ofBytes t.bits (slice data 0 t.ptrBytes) = c.decoder := by
    rw [hdata, slice_append_left _ _ _ (by simp), ByteOrder.ofBytes_toBytes _ (by rfl)]
  have hsl : slice data (t.ptrBytes + 4) c.payloadSize = c.payload := by
    rw [hdata, ← List.append_assoc, slice_append_right _ _ _ _ (by simp),
      slice_append_left _ _ _ hpl.symm]
  have htot : data.length = t.ptrBytes + 4 + c.payloadSize + rest.length := by
    simp only [hdata, List.length_append, ByteOrder.toBytes_length, lenBytes_length, hpl]
    omega
  have hadd : (t.add (t.ptrBytes + 4) c.payloadSize : Decoded ℕ) =
      .ok (t.ptrBytes + 4 + c.payloadSize) := Target.add_of_lt (by omega)
  have hadd' : (t.add (1 + t.ptrBytes + 4) c.payloadSize : Decoded ℕ) =
      .ok (1 + t.ptrBytes + 4 + c.payloadSize) := Target.add_of_lt hfit
  rw [decodeCustom, if_neg (by omega)]
  simp only [hread, hadd, hptr, Outcome.bind_eq, Outcome.ok_bind]
  rw [if_neg (by omega), range_of_le (by omega) (by omega)]
  simp only [Nat.add_sub_cancel_left, hsl, Outcome.ok_bind, hadd', Outcome.pure_eq, Arg.decoded]
  cases (dec c.decoder c.payload) <;> rfl

/-- `decode_one` on an encoding followed by anything reports the argument and
consumes exactly the encoding. -/
theorem decodeOne_encoding (dec : Decoders t) (a : Arg t) (rest : List UInt8) (hlen : a.LenFits)
    (hfit : a.encodedSize < 2 ^ t.bits) :
    decodeOne t dec (a.encoding ++ rest) = (a.decoded dec).map (·, a.encodedSize) := by
  rw [Arg.encoding, List.cons_append, decodeOne, TypeTag.tryFrom_toByte]
  cases a with
  | str s => exact decodeStr_append s rest hlen hfit
  | custom c => exact decodeCustom_append dec c rest hlen hfit
  | bool b =>
    simp only [Arg.tag, Arg.body]
    rw [decodeFixed_append rest 1 _ rfl]
    cases b <;> rfl
  | _ =>
    simp only [Arg.tag, Arg.body, Arg.decoded, Arg.encodedSize, Outcome.map_ok]
    rw [decodeFixed_append rest _ _ (by simp), ByteOrder.ofBytes_toBytes _ (by rfl)]

end Insomnilog.Wire
