import Insomnilog.Wire.RoundTrip

/-! Whole records: a header followed by the arguments at running offsets, as the log
macro lays them out, and what `decode_record` makes of them. -/
namespace Insomnilog.Wire
open ByteStore

variable {t : Target}

/-- The values one log call puts into the queue. -/
structure Record (t : Target) where
  timestampNs : BitVec 64
  metadataPtr : t.Ptr
  loggerPtr : t.Ptr
  args : List (Arg t)
  deriving DecidableEq

/-- The sum of the encoded sizes. -/
def argsSize (args : List (Arg t)) : ℕ := (args.map Arg.encodedSize).sum

/-- The `encode_to` calls of the macro, each at the offset the previous sizes add up to. -/
def encodeArgs : ℕ → List (Arg t) → Stores
  | _, [] => []
  | offset, a :: args => a.encodeTo offset ++ encodeArgs (offset + a.encodedSize) args

namespace Record

def header (r : Record t) : RecordHeader t :=
  .new r.timestampNs r.metadataPtr r.loggerPtr (BitVec.ofNat 32 (argsSize r.args))

def size (r : Record t) : ℕ := RecordHeader.SIZE t + argsSize r.args

/-- All stores of the macro's closure, relative to the reserved slice. -/
def stores (r : Record t) : Stores :=
  r.header.writeTo 0 ++ encodeArgs (RecordHeader.SIZE t) r.args

def bytes (r : Record t) : List UInt8 := r.header.toBytes ++ r.args.flatMap Arg.encoding

end Record

/-- The arguments `decode_record` reports, decoded in order up to the first that fails. -/
def decodedArgs (dec : ℕ → Decoders t) : ℕ → List (Arg t) → Decoded (List DecodedArg)
  | _, [] => .ok []
  | j, a :: args => (a.decoded (dec j)).bind fun d => (decodedArgs dec (j + 1) args).map (d :: ·)

def Record.decoded (dec : ℕ → Decoders t) (r : Record t) : Decoded (RawDecodedRecord t) :=
  (decodedArgs dec 0 r.args).map fun args =>
    ⟨r.timestampNs, r.loggerPtr, r.metadataPtr, args⟩

@[simp] theorem argsSize_nil : argsSize ([] : List (Arg t)) = 0 := rfl

@[simp] theorem argsSize_cons (a : Arg t) (args : List (Arg t)) :
    argsSize (a :: args) = a.encodedSize + argsSize args := by
  simp [argsSize]

theorem flatMap_encoding_length (args : List (Arg t)) :
    (args.flatMap Arg.encoding).length = argsSize args := by
  induction args with
  | nil => rfl
  | cons a args ih => simp [Arg.encoding_length, ih]

theorem encodeArgs_eq (offset : ℕ) (args : List (Arg t)) :
    encodeArgs offset args = storesAt offset (args.flatMap Arg.encoding) := by
  induction args generalizing offset with
  | nil => rfl
  | cons a args ih =>
    rw [encodeArgs, ih, Arg.encodeTo_eq, List.flatMap_cons, storesAt_append, Arg.encoding_length]

theorem argsSize_le_of_mem {args : List (Arg t)} {a : Arg t} (h : a ∈ args) :
    a.encodedSize ≤ argsSize args :=
  List.single_le_sum (by simp) _ (List.mem_map_of_mem h)

namespace RecordHeader

@[simp] theorem toBytes_length (h : RecordHeader t) : h.toBytes.length = SIZE t := by
  simp only [toBytes, SIZE, List.length_append, ByteOrder.toBytes_length]

/-- Reading a header back from the bytes it was copied to. -/
theorem readUnaligned_toBytes (h : RecordHeader t) (rest : List UInt8) :
    readUnaligned t (h.toBytes ++ rest) = h := by
  have e1 : slice (h.toBytes ++ rest) 0 8 = t.order.toBytes 8 h.timestampNs := by
    simp only [toBytes, List.append_assoc]
    exact slice_append_left _ _ _ (by simp)
  have e2 : slice (h.toBytes ++ rest) 8 t.ptrBytes = t.order.toBytes t.ptrBytes h.metadataPtr := by
    simp only [toBytes, List.append_assoc]
    rw [slice_append_right _ _ _ _ (by simp)]
    exact slice_append_left _ _ _ (by simp)
  have e3 : slice (h.toBytes ++ rest) (8 + t.ptrBytes) t.ptrBytes =
      t.order.toBytes t.ptrBytes h.loggerPtr := by
    simp only [toBytes, List.append_assoc]
    rw [← List.append_assoc, slice_append_right _ _ _ _ (by simp)]
    exact slice_append_left _ _ _ (by simp)
  have e4 : slice (h.toBytes ++ rest) (8 + t.ptrBytes + t.ptrBytes) 4 =
      t.order.toBytes 4 h.encodedArgsSize := by
    rw [toBytes, List.append_assoc, List.append_assoc,
      slice_append_right _ _ _ _ (by simp [Nat.add_assoc])]
    exact slice_append_left _ _ _ (by simp)
  have e5 : slice (h.toBytes ++ rest) (8 + t.ptrBytes + t.ptrBytes + 4) 4 =
      t.order.toBytes 4 h.padding := by
    rw [toBytes, List.append_assoc, slice_append_right _ _ _ _ (by simp [Nat.add_assoc])]
    exact slice_append_left _ _ _ (by simp)
  simp only [readUnaligned, e1, e2, e3, e4, e5]
  rw [ByteOrder.ofBytes_toBytes _ (by rfl), ByteOrder.ofBytes_toBytes _ (by rfl),
    ByteOrder.ofBytes_toBytes _ (by rfl), ByteOrder.ofBytes_toBytes _ (by rfl),
    ByteOrder.ofBytes_toBytes _ (by rfl)]

end RecordHeader

/-- The loop of `decode_record`, started at the encodings of `args`: it decodes them
in order and never runs out of fuel. -/
theorem decodeArgs_encodings (dec : ℕ → Decoders t) (args : List (Arg t))
    (pre rest : List UInt8) (done : List DecodedArg) (fuel : ℕ) (hfuel : argsSize args ≤ fuel)
    (hend : pre.length + argsSize args < 2 ^ 32) :
    decodeArgs t dec (pre ++ (args.flatMap Arg.encoding ++ rest)) (pre.length + argsSize args)
        fuel pre.length done =
      (decodedArgs dec done.length args).map (done ++ ·) := by
  induction args generalizing pre done fuel with
  | nil =>
    rw [decodeArgs.eq_def]
    simp [decodedArgs]
  | cons a args ih =>
    have hpos := a.encodedSize_pos
    have hbits := t.pow_le_pow_bits
    rw [argsSize_cons] at hfuel hend
    obtain ⟨fuel, rfl⟩ : ∃ n, fuel = n + 1 := ⟨fuel - 1, by omega⟩
    have hchunk : (range (pre ++ ((a :: args).flatMap Arg.encoding ++ rest)) pre.length
        (pre.length + argsSize (a :: args)) : Decoded (List UInt8)) =
        .ok (a.encoding ++ args.flatMap Arg.encoding) := by
      rw [range_of_le (by omega) (by
        simp only [List.length_append, flatMap_encoding_length]
        omega)]
      rw [Nat.add_sub_cancel_left, slice_append_right _ _ _ _ rfl,
        slice_append_left _ _ _ (flatMap_encoding_length _).symm, List.flatMap_cons]
    have hone := decodeOne_encoding (dec done.length) a (args.flatMap Arg.encoding)
      (Arg.LenFits.of_size (by omega)) (by omega)
    have hnext (d : DecodedArg) := ih (pre ++ a.encoding) (done ++ [d]) fuel (by omega)
      (by rw [List.length_append, Arg.encoding_length]; omega)
    have hadd : (t.add pre.length a.encodedSize : Decoded ℕ) =
        .ok (pre.length + a.encodedSize) := Target.add_of_lt (by omega)
    rw [decodeArgs.eq_def]
    dsimp only
    rw [if_pos (by rw [argsSize_cons]; omega)]
    simp only [Outcome.bind_eq, hchunk, Outcome.ok_bind, hone, decodedArgs]
    cases hd : a.decoded (dec done.length) with
    | err e => simp
    | panic => simp
    | ok d =>
      have hn := hnext d
      simp only [List.length_append, Arg.encoding_length, List.append_assoc,
        List.length_singleton] at hn
      simp only [Outcome.map_ok, Outcome.ok_bind, hadd, argsSize_cons, List.flatMap_cons,
        List.append_assoc, ← Nat.add_assoc, hn]
      cases decodedArgs dec (done.length + 1) args <;> simp

namespace Record
variable {r : Record t}

theorem bytes_length (r : Record t) : r.bytes.length = r.size := by
  rw [bytes, List.length_append, RecordHeader.toBytes_length, flatMap_encoding_length, size]

/-- The closure stores the bytes of the record one after the other. -/
theorem stores_eq (r : Record t) : r.stores = storesAt 0 r.bytes := by
  rw [stores, encodeArgs_eq, RecordHeader.writeTo, bytes, storesAt_append,
    RecordHeader.toBytes_length, Nat.zero_add]

theorem applyStores_stores {mem : List UInt8} (h : mem.length = r.size) :
    applyStores mem r.stores = r.bytes := by
  rw [stores_eq, applyStores_storesAt_zero (by rw [bytes_length, h])]

theorem header_encodedArgsSize (h : argsSize r.args < 2 ^ 32) :
    r.header.encodedArgsSize.toNat = argsSize r.args := by
  rw [header, RecordHeader.new, BitVec.toNat_ofNat, Nat.mod_eq_of_lt h]

end Record

/-- `decode_record` on the bytes of a record followed by anything. -/
theorem decodeRecord_bytes (dec : ℕ → Decoders t) {r : Record t} (h : argsSize r.args < 2 ^ 32)
    (rest : List UInt8) : decodeRecord t dec (r.bytes ++ rest) = r.decoded dec := by
  have hassoc : r.bytes ++ rest = r.header.toBytes ++ (r.args.flatMap Arg.encoding ++ rest) := by
    rw [Record.bytes, List.append_assoc]
  have hdrop : (r.bytes ++ rest).drop (RecordHeader.SIZE t) =
      r.args.flatMap Arg.encoding ++ rest := by
    rw [hassoc, ← RecordHeader.toBytes_length r.header, List.drop_left]
  have hlen : (r.args.flatMap Arg.encoding ++ rest).length = argsSize r.args + rest.length := by
    rw [List.length_append, flatMap_encoding_length]
  have hloop := decodeArgs_encodings dec r.args [] rest [] (argsSize r.args) le_rfl
    (by simpa using h)
  simp only [List.nil_append, List.length_nil, Nat.zero_add] at hloop
  rw [decodeRecord, if_neg (by rw [List.length_append, Record.bytes_length, Record.size]; omega)]
  simp only [hdrop]
  rw [hassoc, RecordHeader.readUnaligned_toBytes, Record.header_encodedArgsSize h,
    if_neg (by omega)]
  simp only [Outcome.bind_eq, hloop, Record.decoded]
  cases decodedArgs dec 0 r.args <;> rfl

/-- The argument as a reader gets it back, when every custom decoder succeeds with the
text `out` gives for its value. -/
def Arg.asDecoded (out : CustomArg t → String) : Arg t → DecodedArg
  | i8 v => .i8 v
  | i16 v => .i16 v
  | i32 v => .i32 v
  | i64 v => .i64 v
  | i128 v => .i128 v
  | u8 v => .u8 v
  | u16 v => .u16 v
  | u32 v => .u32 v
  | u64 v => .u64 v
  | u128 v => .u128 v
  | f32 v => .f32 v
  | f64 v => .f64 v
  | bool v => .bool v
  | str v => .str v
  | usize v => .usize (v.setWidth 64)
  | isize v => .isize (v.signExtend 64)
  | custom c => .custom (out c)

theorem Arg.decoded_eq_ok {dec : Decoders t} {out : CustomArg t → String} {a : Arg t}
    (h : ∀ c, a = .custom c → dec c.decoder c.payload = .ok (out c)) :
    a.decoded dec = .ok (a.asDecoded out) := by
  cases a with
  | custom c => simp [decoded, asDecoded, h c rfl]
  | _ => rfl

theorem decodedArgs_eq_ok {dec : Decoders t} {out : CustomArg t → String} (args : List (Arg t))
    (h : ∀ c, .custom c ∈ args → dec c.decoder c.payload = .ok (out c)) (j : ℕ) :
    decodedArgs (fun _ => dec) j args = .ok (args.map (Arg.asDecoded out)) := by
  induction args generalizing j with
  | nil => rfl
  | cons a args ih =>
    have ha : a.decoded dec = .ok (a.asDecoded out) :=
      Arg.decoded_eq_ok fun c hc => h c (hc ▸ List.mem_cons_self)
    have hrest := ih (fun c hc => h c (List.mem_cons_of_mem _ hc)) (j + 1)
    simp [decodedArgs, ha, hrest]

theorem Record.decoded_fields {dec : ℕ → Decoders t} {r : Record t} {raw : RawDecodedRecord t}
    (h : r.decoded dec = .ok raw) : raw.loggerPtr = r.loggerPtr ∧ raw.metadata = r.metadataPtr := by
  unfold Record.decoded at h
  cases hargs : decodedArgs dec 0 r.args with
  | ok args =>
    rw [hargs] at h
    cases h
    exact ⟨rfl, rfl⟩
  | _ => simp [hargs] at h

/-- Every custom decoder called for these arguments succeeds. -/
def DecodersOk (dec : ℕ → Decoders t) (args : List (Arg t)) : Prop :=
  ∀ j c, args[j]? = some (.custom c) → ∃ text, dec j c.decoder c.payload = .ok text

/-- The first custom decoder that does not succeed panics. -/
def DecoderPanics (dec : ℕ → Decoders t) (args : List (Arg t)) : Prop :=
  ∃ j c, args[j]? = some (.custom c) ∧ dec j c.decoder c.payload = .panic ∧
    DecodersOk dec (args.take j)

theorem decodedArgs_succ (dec : ℕ → Decoders t) (args : List (Arg t)) (j : ℕ) :
    decodedArgs dec (j + 1) args = decodedArgs (fun i => dec (i + 1)) j args := by
  induction args generalizing j with
  | nil => rfl
  | cons a args ih => simp only [decodedArgs, ih]

theorem decodersOk_cons {dec : ℕ → Decoders t} {a : Arg t} {args : List (Arg t)} :
    DecodersOk dec (a :: args) ↔ (∃ d, a.decoded (dec 0) = .ok d) ∧
      DecodersOk (fun i => dec (i + 1)) args := by
  have hhead : (∀ c, a = .custom c → ∃ text, dec 0 c.decoder c.payload = .ok text) ↔
      ∃ d, a.decoded (dec 0) = .ok d := by
    cases a with
    | custom c => cases hd : dec 0 c.decoder c.payload <;> simp [Arg.decoded, hd]
    | _ => simp [Arg.decoded]
  rw [← hhead]
  constructor
  · intro h
    exact ⟨fun c hc => h 0 c (by rw [hc]; rfl), fun j c hc => h (j + 1) c hc⟩
  · rintro ⟨h0, h⟩ j c hc
    cases j with
    | zero => exact h0 c (Option.some.inj hc)
    | succ j => exact h j c hc

theorem decodedArgs_ok_iff {dec : ℕ → Decoders t} {args : List (Arg t)} :
    (∃ ds, decodedArgs dec 0 args = .ok ds) ↔ DecodersOk dec args := by
  induction args generalizing dec with
  | nil => simp [decodedArgs, DecodersOk]
  | cons a args ih =>
    rw [decodersOk_cons, ← ih, decodedArgs, decodedArgs_succ]
    cases a.decoded (dec 0) with
    | ok d => cases decodedArgs (fun i => dec (i + 1)) 0 args <;> simp
    | _ => simp

theorem decodedArgs_panic_iff {dec : ℕ → Decoders t} {args : List (Arg t)} :
    decodedArgs dec 0 args = .panic ↔ DecoderPanics dec args := by
  induction args generalizing dec with
  | nil => simp [decodedArgs, DecoderPanics]
  | cons a args ih =>
    have hcons : DecoderPanics dec (a :: args) ↔ a.decoded (dec 0) = .panic ∨
        (∃ d, a.decoded (dec 0) = .ok d) ∧ DecoderPanics (fun i => dec (i + 1)) args := by
      constructor
      · rintro ⟨j, c, hc, hpanic, hok⟩
        cases j with
        | zero =>
          obtain rfl := Option.some.inj hc
          exact .inl (by simp [Arg.decoded, hpanic])
        | succ j =>
          obtain ⟨ha, hrest⟩ := decodersOk_cons.mp hok
          exact .inr ⟨ha, j, c, hc, hpanic, hrest⟩
      · rintro (hpanic | ⟨ha, j, c, hc, hpanic, hok⟩)
        · cases a with
          | custom c =>
            refine ⟨0, c, rfl, ?_, fun j c hc => by simp at hc⟩
            cases hd : dec 0 c.decoder c.payload <;> simp_all [Arg.decoded]
          | _ => simp [Arg.decoded] at hpanic
        · exact ⟨j + 1, c, hc, hpanic, decodersOk_cons.mpr ⟨ha, hok⟩⟩
    rw [hcons, ← ih, decodedArgs, decodedArgs_succ]
    cases a.decoded (dec 0) with
    | ok d => cases decodedArgs (fun i => dec (i + 1)) 0 args <;> simp
    | _ => simp

theorem Record.decoded_ok_iff {dec : ℕ → Decoders t} {r : Record t} :
    (∃ d, r.decoded dec = .ok d) ↔ DecodersOk dec r.args := by
  rw [← decodedArgs_ok_iff, Record.decoded]
  cases decodedArgs dec 0 r.args <;> simp

theorem Record.decoded_panic_iff {dec : ℕ → Decoders t} {r : Record t} :
    r.decoded dec = .panic ↔ DecoderPanics dec r.args := by
  rw [← decodedArgs_panic_iff, Record.decoded]
  cases decodedArgs dec 0 r.args <;> simp

/-- Records survive the round trip: laid out by the macro over any reserved slice and
decoded from a buffer that may go on behind them, the same header fields and the same
arguments come back, and every argument takes exactly its encoded size. -/
theorem record_round_trip (r : Record t) (hsize : argsSize r.args < 2 ^ 32) (dec : Decoders t)
    (out : CustomArg t → String)
    (hdec : ∀ c, .custom c ∈ r.args → dec c.decoder c.payload = .ok (out c))
    (mem trailing : List UInt8) (hmem : mem.length = r.size) :
    decodeRecord t (fun _ => dec) (applyStores mem r.stores ++ trailing) =
        .ok ⟨r.timestampNs, r.loggerPtr, r.metadataPtr, r.args.map (Arg.asDecoded out)⟩ ∧
      ∀ a ∈ r.args, ∀ dst, ∃ enc, enc.length = a.encodedSize ∧ a.encodeTo dst = storesAt dst enc ∧
        ∀ rest, decodeOne t dec (enc ++ rest) = .ok (a.asDecoded out, a.encodedSize) := by
  constructor
  · rw [Record.applyStores_stores hmem, decodeRecord_bytes _ hsize, Record.decoded,
      decodedArgs_eq_ok r.args hdec]
    rfl
  · intro a ha dst
    have hle := argsSize_le_of_mem ha
    have hbits := t.pow_le_pow_bits
    refine ⟨a.encoding, a.encoding_length, a.encodeTo_eq dst, fun rest => ?_⟩
    rw [decodeOne_encoding dec a rest (.of_size (by omega)) (by omega),
      Arg.decoded_eq_ok fun c hc => hdec c (hc ▸ ha)]
    rfl

/-- A record with a string, a pointer-sized integer and a custom value, followed by
three more bytes. -/
theorem record_round_trip_mixed :
    let t : Target := ⟨.w64, .little, true⟩
    let dec : Decoders t := fun _ payload => .ok (if payload.length = 2 then "pair" else "other")
    let r : Record t := ⟨9, 0x1000, 0x2000,
      [.str "ab", .usize 7, .custom ⟨0x3000, 2, [0x61, 0x62], rfl⟩]⟩
    decodeRecord t (fun _ => dec) (applyStores (.replicate 63 0) r.stores ++ [1, 2, 3]) =
      .ok ⟨9, 0x2000, 0x1000, [.str "ab", .usize 7, .custom "pair"]⟩ := by
  intro t dec r
  exact (record_round_trip r (by decide) dec
    (fun c => if c.payload.length = 2 then "pair" else "other") (fun c _ => rfl)
    (.replicate 63 0) [1, 2, 3] (by decide)).1

end Insomnilog.Wire
