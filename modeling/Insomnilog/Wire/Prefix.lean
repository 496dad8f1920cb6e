import Insomnilog.Lib.PrefixCode
import Insomnilog.Wire.RoundTrip

/-! Argument encodings are self-delimiting. -/
namespace Insomnilog.Wire
open ByteStore PrefixCode

variable {t : Target}

/-- The length prefix does not truncate, and the encoded size fits `usize`. -/
def Arg.Encodable (a : Arg t) : Prop := a.LenFits ∧ a.encodedSize < 2 ^ t.bits

theorem decodeFixed_take {bytes : List UInt8} {n k : ℕ} (make : List UInt8 → DecodedArg)
    (h : bytes.length = n) (hk : k < n) :
    decodeFixed n (bytes.take k) make = .err .bufferTooShort := by
  apply if_pos
  rw [List.length_take]
  omega

/-- A string that is cut inside its length or its text. -/
theorem decodeStr_take {s : String} {k : ℕ} (hlen : (utf8 s).length < 2 ^ 32)
    (hfit : 1 + 4 + (utf8 s).length < 2 ^ t.bits) (hk : k < 4 + (utf8 s).length) :
    decodeStr t ((lenBytes t (utf8 s).length ++ utf8 s).take k) = .err .bufferTooShort := by
  have hdata : ((lenBytes t (utf8 s).length ++ utf8 s).take k).length = k := by
    rw [List.length_take, List.length_append, lenBytes_length]
    omega
  by_cases h4 : k < 4
  · rw [decodeStr, hdata, if_pos h4]
  · have hsplit : (lenBytes t (utf8 s).length ++ utf8 s).take k =
        lenBytes t (utf8 s).length ++ (utf8 s).take (k - 4) := by
      rw [List.take_append, lenBytes_length,
        List.take_of_length_le (by rw [lenBytes_length]; omega)]
    have hread : readLen t ((lenBytes t (utf8 s).length ++ utf8 s).take k) 0 = (utf8 s).length := by
      rw [hsplit]
      exact readLen_append (t := t) hlen [] _ 0 rfl
    have hadd : (t.add 4 (utf8 s).length : Decoded ℕ) = .ok (4 + (utf8 s).length) :=
      Target.add_of_lt (by omega)
    rw [decodeStr, hdata, if_neg h4]
    simp only [hread, hadd, Outcome.bind_eq, Outcome.ok_bind]
    exact if_pos hk

/-- A custom argument that is cut inside its function pointer, its length or its payload;
the pointer is not called. -/
theorem decodeCustom_take (dec : Decoders t) {c : CustomArg t} {k : ℕ}
    (hlen : c.payloadSize < 2 ^ 32) (hfit : 1 + t.ptrBytes + 4 + c.payloadSize < 2 ^ t.bits)
    (hk : k < t.ptrBytes + 4 + c.payloadSize) :
    decodeCustom t dec ((t.order.toBytes t.ptrBytes c.decoder ++ lenBytes t c.payloadSize ++
      c.payload).take k) = .err .bufferTooShort := by
  set data := t.order.toBytes t.ptrBytes c.decoder ++ lenBytes t c.payloadSize ++ c.payload
    with hd
  have hdata : (data.take k).length = k := by
    rw [List.length_take, hd, List.length_append, List.length_append, lenBytes_length,
      ByteOrder.toBytes_length, c.writes_exactly]
    omega
  by_cases hp : k < t.ptrBytes + 4
  · rw [decodeCustom, hdata, if_pos hp]
  · have hsplit : data.take k = t.order.toBytes t.ptrBytes c.decoder ++
        (lenBytes t c.payloadSize ++ c.payload.take (k - (t.ptrBytes + 4))) := by
      have hhead : (t.order.toBytes t.ptrBytes c.decoder ++ lenBytes t c.payloadSize).length =
          t.ptrBytes + 4 := by
        rw [List.length_append, lenBytes_length, ByteOrder.toBytes_length]
      rw [hd, List.take_append, hhead, List.take_of_length_le (by omega), List.append_assoc]
    have hread : readLen t (data.take k) t.ptrBytes = c.payloadSize := by
      rw [hsplit]
      exact readLen_append hlen _ _ _ (by simp)
    have hadd : (t.add (t.ptrBytes + 4) c.payloadSize : Decoded ℕ) =
        .ok (t.ptrBytes + 4 + c.payloadSize) := Target.add_of_lt (by omega)
    rw [decodeCustom, hdata, if_neg hp]
    simp only [hread, hadd, Outcome.bind_eq, Outcome.ok_bind]
    exact if_pos hk

/-- `decode_one` on a proper prefix of an encoding finds the buffer too short, whatever the
decoders would do. -/
theorem decodeOne_take (dec : Decoders t) {a : Arg t} {k : ℕ} (ha : a.Encodable)
    (hk : k < a.encodedSize) : decodeOne t dec (a.encoding.take k) = .err .bufferTooShort := by
  obtain ⟨hlen, hfit⟩ := ha
  cases k with
  | zero => rfl
  | succ k =>
    rw [Arg.encoding, List.take_succ_cons, decodeOne, TypeTag.tryFrom_toByte]
    cases a with
    | str s => exact decodeStr_take hlen hfit (by simp only [Arg.encodedSize] at hk; omega)
    | custom c =>
      exact decodeCustom_take dec hlen hfit (by simp only [Arg.encodedSize] at hk; omega)
    | bool b =>
      simp only [Arg.encodedSize] at hk
      exact decodeFixed_take _ rfl (by omega)
    | _ =>
      simp only [Arg.encodedSize] at hk
      exact decodeFixed_take _ (ByteOrder.toBytes_length ..) (by omega)

/-- Every argument is read back from its encoding, whatever follows it; a proper prefix of
an encoding is too short, whatever the decoders do; so encodings are prefix free and
concatenations of encodings split in only one way. -/
theorem encodings_self_delimiting (t : Target) :
    (∀ (a : Arg t) (mem : List UInt8), mem.length = a.encodedSize →
      applyStores mem (a.encodeTo 0) = a.encoding) ∧
    (∀ (a : Arg t) (dec : Decoders t) (d : DecodedArg) (rest : List UInt8), a.Encodable →
      a.decoded dec = .ok d →
      decodeOne t dec (a.encoding ++ rest) = .ok (d, a.encoding.length)) ∧
    (∀ (a : Arg t) (dec : Decoders t) (k : ℕ), a.Encodable → k < a.encoding.length →
      decodeOne t dec (a.encoding.take k) = .err .bufferTooShort) ∧
    PrefixFree {a : Arg t | a.Encodable} Arg.encoding ∧
    ∀ as bs : List (Arg t), (∀ a ∈ as, a.Encodable) → (∀ b ∈ bs, b.Encodable) →
      as.flatMap Arg.encoding = bs.flatMap Arg.encoding →
      as.map Arg.encoding = bs.map Arg.encoding := by
  have hfree : PrefixFree {a : Arg t | a.Encodable} Arg.encoding := by
    -- no decoder fails, so that every complete encoding is accepted
    apply PrefixFree.of_accepts fun bytes => (decodeOne t (fun _ _ => .ok "") bytes).isOk = true
    · intro a ha rest
      rw [decodeOne_encoding _ a rest ha.1 ha.2]
      cases a <;> rfl
    · intro a ha k hk
      rw [Arg.encoding_length] at hk
      rw [decodeOne_take _ ha hk]
      exact Bool.false_ne_true
  refine ⟨?_, ?_, ?_, hfree, ?_⟩
  · intro a mem hmem
    rw [Arg.encodeTo_eq]
    exact applyStores_storesAt_zero (by rw [Arg.encoding_length, hmem])
  · intro a dec d rest ha hd
    rw [decodeOne_encoding dec a rest ha.1 ha.2, hd, Arg.encoding_length]
    rfl
  · intro a dec k ha hk
    rw [Arg.encoding_length] at hk
    exact decodeOne_take dec ha hk
  · intro as bs has hbs heq
    apply hfree.split_unique (fun a _ => ?_) has hbs heq
    exact List.cons_ne_nil _ _

/-- A string whose last character takes two bytes, followed by a byte and cut inside that
character; and two ways to split one concatenation. -/
theorem encodings_self_delimiting_text :
    let t : Target := ⟨.w64, .little, true⟩
    let a : Arg t := .str "hé"
    decodeOne t (fun _ _ => .panic) (a.encoding ++ [7]) = .ok (.str "hé", 8) ∧
      decodeOne t (fun _ _ => .panic) (a.encoding.take 7) = .err .bufferTooShort ∧
      [a, .bool true].map Arg.encoding = [a, .bool true].map Arg.encoding := by
  intro t a
  have ha : a.Encodable := by
    constructor
    · show (utf8 "hé").length < 2 ^ 32
      decide
    · decide
  have hb : (Arg.bool true : Arg t).Encodable := by
    constructor
    · trivial
    · decide
  obtain ⟨-, hfull, hcut, -, hsplit⟩ := encodings_self_delimiting t
  refine ⟨hfull a _ (.str "hé") [7] ha rfl, hcut a _ 7 ha (by decide), ?_⟩
  have hmem : ∀ x ∈ [a, .bool true], x.Encodable := by
    intro x hx
    rcases List.mem_pair.mp hx with rfl | rfl
    · exact ha
    · exact hb
  exact hsplit _ _ hmem hmem rfl

end Insomnilog.Wire
