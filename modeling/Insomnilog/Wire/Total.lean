import Insomnilog.Wire.Record

/-! The decoder on arbitrary bytes: where it can panic, how much it consumes, and what it
accepts. A slice is never longer than `isize::MAX`. -/
namespace Insomnilog.Wire
open ByteStore

variable {t : Target}

/-- The bytes start with a complete length prefix whose end position overflows `usize`. -/
def Overflows (t : Target) : List UInt8 → Prop
  | [] => False
  | tagByte :: rest =>
    match TypeTag.tryFrom tagByte with
    | some .str => 4 ≤ rest.length ∧ 2 ^ t.bits ≤ 4 + readLen t rest 0
    | some .custom =>
        t.ptrBytes + 4 ≤ rest.length ∧ 2 ^ t.bits ≤ t.ptrBytes + 4 + readLen t rest t.ptrBytes
    | _ => False

/-- If the bytes start with a complete custom argument, its decoder does not panic. -/
def SafeCall (dec : Decoders t) : List UInt8 → Prop
  | [] => True
  | tagByte :: rest =>
    TypeTag.tryFrom tagByte = some .custom →
      t.ptrBytes + 4 + readLen t rest t.ptrBytes ≤ rest.length →
      dec (t.order.ofBytes t.bits (slice rest 0 t.ptrBytes))
        (slice rest (t.ptrBytes + 4) (readLen t rest t.ptrBytes)) ≠ .panic

/-- An error, or a value and a number of consumed bytes between 1 and `len`. -/
def InBounds (len : ℕ) (r : Decoded (DecodedArg × ℕ)) : Prop :=
  (∃ e, r = .err e) ∨ ∃ d n, r = .ok (d, n) ∧ 1 ≤ n ∧ n ≤ len

theorem readLen_lt (t : Target) (data : List UInt8) (off : ℕ) : readLen t data off < 2 ^ 32 :=
  BitVec.isLt _

/-- A sum that overflows panics, or wraps below its first operand. -/
theorem Target.add_overflow {ε : Type*} {a b : ℕ} (h : 2 ^ t.bits ≤ a + b) (ha : a < 2 ^ t.bits)
    (hb : b < 2 ^ t.bits) :
    (t.add a b : Outcome ε ℕ) = .panic ∨ ∃ c < a, (t.add a b : Outcome ε ℕ) = .ok c := by
  unfold Target.add
  rw [if_neg (by omega)]
  split
  · exact .inl rfl
  · refine .inr ⟨_, ?_, rfl⟩
    have hmod : (a + b) % 2 ^ t.bits = a + b - 2 ^ t.bits := by
      rw [Nat.mod_eq_sub_mod h, Nat.mod_eq_of_lt (by omega)]
    omega

theorem Target.small_lt (t : Target) : 1 + t.ptrBytes + 4 < 2 ^ t.bits := by
  have := t.pow_le_pow_bits
  have : t.ptrBytes ≤ 8 := by
    unfold ptrBytes
    split <;> omega
  omega

theorem decodeFixed_inBounds (n : ℕ) (data : List UInt8) (make : List UInt8 → DecodedArg) :
    InBounds (data.length + 1) (decodeFixed n data make) := by
  unfold decodeFixed
  split
  · exact .inl ⟨_, rfl⟩
  · exact .inr ⟨_, _, rfl, by omega, by omega⟩

theorem decodeStr_panic {data : List UInt8} (h4 : 4 ≤ data.length)
    (h : 2 ^ t.bits ≤ 4 + readLen t data 0) : decodeStr t data = .panic := by
  have hsmall := t.small_lt
  have hlen := (readLen_lt t data 0).trans_le t.pow_le_pow_bits
  rw [decodeStr, if_neg (by omega)]
  simp only [Outcome.bind_eq]
  rcases Target.add_overflow (ε := DecodeError) h (by omega) hlen with hp | ⟨c, hc, hok⟩
  · rw [hp]
    rfl
  · rw [hok, Outcome.ok_bind, if_neg (by omega), range, if_neg (by omega)]
    rfl

theorem decodeStr_inBounds {data : List UInt8} (hmem : data.length + 1 < 2 ^ t.bits)
    (h : ¬ (4 ≤ data.length ∧ 2 ^ t.bits ≤ 4 + readLen t data 0)) :
    InBounds (data.length + 1) (decodeStr t data) := by
  unfold decodeStr
  split
  · exact .inl ⟨_, rfl⟩
  · have hadd : (t.add 4 (readLen t data 0) : Decoded ℕ) = .ok (4 + readLen t data 0) :=
      Target.add_of_lt (by omega)
    simp only [hadd, Outcome.bind_eq, Outcome.ok_bind]
    split
    · exact .inl ⟨_, rfl⟩
    · have hadd' : (t.add (1 + 4) (readLen t data 0) : Decoded ℕ) =
          .ok (1 + 4 + readLen t data 0) := Target.add_of_lt (by omega)
      rw [range_of_le (by omega) (by omega), Outcome.ok_bind]
      cases String.fromUTF8? ⟨(slice data 4 (4 + readLen t data 0 - 4)).toArray⟩ with
      | none => exact .inl ⟨_, rfl⟩
      | some s =>
        simp only [hadd', Outcome.ok_bind, Outcome.pure_eq]
        exact .inr ⟨_, _, rfl, by omega, by omega⟩

theorem decodeCustom_panic (dec : Decoders t) {data : List UInt8}
    (hp : t.ptrBytes + 4 ≤ data.length)
    (h : 2 ^ t.bits ≤ t.ptrBytes + 4 + readLen t data t.ptrBytes) :
    decodeCustom t dec data = .panic := by
  have hsmall := t.small_lt
  have hlen := (readLen_lt t data t.ptrBytes).trans_le t.pow_le_pow_bits
  rw [decodeCustom, if_neg (by omega)]
  simp only [Outcome.bind_eq]
  rcases Target.add_overflow (ε := DecodeError) h (by omega) hlen with hp | ⟨c, hc, hok⟩
  · rw [hp]
    rfl
  · rw [hok, Outcome.ok_bind, if_neg (by omega), range, if_neg (by omega)]
    rfl

theorem decodeCustom_inBounds (dec : Decoders t) {data : List UInt8}
    (hmem : data.length + 1 < 2 ^ t.bits)
    (h : ¬ (t.ptrBytes + 4 ≤ data.length ∧
      2 ^ t.bits ≤ t.ptrBytes + 4 + readLen t data t.ptrBytes))
    (hcall : t.ptrBytes + 4 + readLen t data t.ptrBytes ≤ data.length →
      dec (t.order.ofBytes t.bits (slice data 0 t.ptrBytes))
        (slice data (t.ptrBytes + 4) (readLen t data t.ptrBytes)) ≠ .panic) :
    InBounds (data.length + 1) (decodeCustom t dec data) := by
  unfold decodeCustom
  split
  · exact .inl ⟨_, rfl⟩
  · have hadd : (t.add (t.ptrBytes + 4) (readLen t data t.ptrBytes) : Decoded ℕ) =
        .ok (t.ptrBytes + 4 + readLen t data t.ptrBytes) := Target.add_of_lt (by omega)
    simp only [hadd, Outcome.bind_eq, Outcome.ok_bind]
    split
    · exact .inl ⟨_, rfl⟩
    · have hadd' : (t.add (1 + t.ptrBytes + 4) (readLen t data t.ptrBytes) : Decoded ℕ) =
          .ok (1 + t.ptrBytes + 4 + readLen t data t.ptrBytes) := Target.add_of_lt (by omega)
      rw [range_of_le (by omega) (by omega), Outcome.ok_bind, Nat.add_sub_cancel_left]
      have hcall := hcall (by omega)
      revert hcall
      cases dec (t.order.ofBytes t.bits (slice data 0 t.ptrBytes))
          (slice data (t.ptrBytes + 4) (readLen t data t.ptrBytes)) with
      | ok out =>
        intro _
        simp only [Outcome.mapErr_ok, hadd', Outcome.ok_bind, Outcome.pure_eq]
        exact .inr ⟨_, _, rfl, by omega, by omega⟩
      | err e => exact fun _ => .inl ⟨_, rfl⟩
      | panic => exact fun h => absurd rfl h

/-- `decode_one` panics exactly where an end position overflows; otherwise it stays in
bounds. -/
theorem decodeOne_cases {dec : Decoders t} {data : List UInt8} (hmem : data.length < 2 ^ t.bits)
    (hcall : SafeCall dec data) :
    Overflows t data ∧ decodeOne t dec data = .panic ∨
      ¬ Overflows t data ∧ InBounds data.length (decodeOne t dec data) := by
  cases data with
  | nil => exact .inr ⟨id, .inl ⟨_, rfl⟩⟩
  | cons tagByte rest =>
    rw [List.length_cons] at hmem
    cases htag : TypeTag.tryFrom tagByte with
    | none =>
      simp only [Overflows, decodeOne, htag]
      exact .inr ⟨id, .inl ⟨_, rfl⟩⟩
    | some tag =>
      cases tag with
      | str =>
        simp only [Overflows, decodeOne, htag]
        by_cases h : 4 ≤ rest.length ∧ 2 ^ t.bits ≤ 4 + readLen t rest 0
        · exact .inl ⟨h, decodeStr_panic h.1 h.2⟩
        · exact .inr ⟨h, decodeStr_inBounds hmem h⟩
      | custom =>
        simp only [Overflows, decodeOne, htag]
        by_cases h : t.ptrBytes + 4 ≤ rest.length ∧
            2 ^ t.bits ≤ t.ptrBytes + 4 + readLen t rest t.ptrBytes
        · exact .inl ⟨h, decodeCustom_panic dec h.1 h.2⟩
        · exact .inr ⟨h, decodeCustom_inBounds dec hmem h (hcall htag)⟩
      | _ =>
        simp only [Overflows, decodeOne, htag]
        exact .inr ⟨id, decodeFixed_inBounds ..⟩

/-- Decoding from argument `j` on takes the arguments `ds` off the front of the bytes, one
call of `decode_one` each, and leaves `rest`. -/
inductive Walk (dec : ℕ → Decoders t) : ℕ → List UInt8 → List DecodedArg → List UInt8 → Prop
  | done (j : ℕ) (bytes : List UInt8) : Walk dec j bytes [] bytes
  | next {j n : ℕ} {bytes rest : List UInt8} {d : DecodedArg} {ds : List DecodedArg} :
      decodeOne t (dec j) bytes = .ok (d, n) → Walk dec (j + 1) (bytes.drop n) ds rest →
      Walk dec j bytes (d :: ds) rest

/-- The bytes that the header announces as arguments, when header and arguments are all
there. -/
def argsRegion (t : Target) (data : List UInt8) : Option (List UInt8) :=
  let argsEnd := (RecordHeader.readUnaligned t data).encodedArgsSize.toNat
  if RecordHeader.SIZE t + argsEnd ≤ data.length then
    some (slice data (RecordHeader.SIZE t) argsEnd)
  else none

variable {dec : ℕ → Decoders t} {j n : ℕ} {bytes rest : List UInt8} {d : DecodedArg}
variable {ds : List DecodedArg}

theorem walk_ok_iff (h : decodeOne t (dec j) bytes = .ok (d, n)) :
    Walk dec j bytes ds rest ↔ ds = [] ∧ rest = bytes ∨
      ∃ ds', ds = d :: ds' ∧ Walk dec (j + 1) (bytes.drop n) ds' rest := by
  constructor
  · intro hw
    cases hw with
    | done => exact .inl ⟨rfl, rfl⟩
    | next h' hw =>
      obtain ⟨rfl, rfl⟩ := Prod.mk.inj (Outcome.ok.inj (h.symm.trans h'))
      exact .inr ⟨_, rfl, hw⟩
  · rintro (⟨rfl, rfl⟩ | ⟨ds', rfl, hw⟩)
    · exact .done ..
    · exact .next h hw

theorem walk_stuck (h : ∀ r, decodeOne t (dec j) bytes ≠ .ok r) (hw : Walk dec j bytes ds rest) :
    ds = [] ∧ rest = bytes := by
  cases hw with
  | done => exact ⟨rfl, rfl⟩
  | next h' _ => exact absurd h' (h _)

/-- The result of the argument loop, read off the walks over the bytes it has left. -/
structure Explains (dec : ℕ → Decoders t) (args : List DecodedArg) (bytes : List UInt8)
    (r : Decoded (List DecodedArg)) : Prop where
  panic_iff : r = .panic ↔ ∃ ds rest, Walk dec args.length bytes ds rest ∧ Overflows t rest
  ok_iff : ∀ out, r = .ok out ↔ ∃ ds, out = args ++ ds ∧ Walk dec args.length bytes ds []

namespace Explains
variable {args : List DecodedArg} {r : Decoded (List DecodedArg)}

/-- Where `decode_one` returns no value, the only walk is the empty one. -/
theorem of_stuck (hne : bytes ≠ []) (h : ∀ v, decodeOne t (dec args.length) bytes ≠ .ok v)
    (hr : ∀ out, r ≠ .ok out) (ho : r = .panic ↔ Overflows t bytes) :
    Explains dec args bytes r := by
  constructor
  · rw [ho]
    constructor
    · exact fun ho => ⟨[], bytes, .done .., ho⟩
    · rintro ⟨ds, rest, hw, ho⟩
      rw [← (walk_stuck h hw).2]
      exact ho
  · intro out
    constructor
    · exact fun hout => absurd hout (hr out)
    · rintro ⟨ds, -, hw⟩
      exact absurd (walk_stuck h hw).2.symm hne

theorem nil (dec : ℕ → Decoders t) (args : List DecodedArg) :
    Explains dec args [] (.ok args) := by
  have hstuck : ∀ r, decodeOne t (dec args.length) [] ≠ .ok r := by
    rintro r ⟨⟩
  constructor
  · constructor
    · rintro ⟨⟩
    · rintro ⟨ds, rest, hw, ho⟩
      obtain ⟨-, rfl⟩ := walk_stuck hstuck hw
      exact ho.elim
  · intro out
    constructor
    · intro h
      obtain rfl := Outcome.ok.inj h
      exact ⟨[], (List.append_nil _).symm, .done ..⟩
    · rintro ⟨ds, rfl, hw⟩
      obtain ⟨rfl, -⟩ := walk_stuck hstuck hw
      rw [List.append_nil]

theorem next (h : decodeOne t (dec args.length) bytes = .ok (d, n)) (ho : ¬ Overflows t bytes)
    (hr : Explains dec (args ++ [d]) (bytes.drop n) r) : Explains dec args bytes r := by
  have hlen : (args ++ [d]).length = args.length + 1 := by simp
  constructor
  · rw [hr.panic_iff, hlen]
    constructor
    · rintro ⟨ds, rest, hw, ho⟩
      exact ⟨d :: ds, rest, .next h hw, ho⟩
    · rintro ⟨ds, rest, hw, ho'⟩
      rcases (walk_ok_iff h).mp hw with ⟨-, rfl⟩ | ⟨ds', -, hw⟩
      · exact absurd ho' ho
      · exact ⟨ds', rest, hw, ho'⟩
  · intro out
    rw [hr.ok_iff, hlen]
    constructor
    · rintro ⟨ds, rfl, hw⟩
      exact ⟨d :: ds, by simp, .next h hw⟩
    · rintro ⟨ds, rfl, hw⟩
      rcases (walk_ok_iff h).mp hw with ⟨-, rfl⟩ | ⟨ds', rfl, hw'⟩
      · cases h
      · exact ⟨ds', by simp, hw'⟩

end Explains

theorem decodeArgs_done {argsData : List UInt8} {argsEnd fuel offset : ℕ} {args : List DecodedArg}
    (h : ¬ offset < argsEnd) : decodeArgs t dec argsData argsEnd fuel offset args = .ok args := by
  rw [decodeArgs.eq_def]
  exact if_neg h

theorem decodeArgs_step {argsData : List UInt8} {argsEnd fuel offset : ℕ} {args : List DecodedArg}
    (h : offset < argsEnd) (hend : argsEnd ≤ argsData.length) :
    decodeArgs t dec argsData argsEnd (fuel + 1) offset args =
      (decodeOne t (dec args.length) (slice argsData offset (argsEnd - offset))).bind fun r =>
        (t.add offset r.2).bind fun offset =>
          decodeArgs t dec argsData argsEnd fuel offset (args ++ [r.1]) := by
  rw [decodeArgs.eq_def]
  simp only [if_pos h, range_of_le h.le hend, Outcome.bind_eq, Outcome.ok_bind]

/-- The loop of `decode_record` in terms of the walks from its offset on; it never runs out
of fuel. -/
theorem decodeArgs_explains {argsData : List UInt8} {argsEnd : ℕ}
    (hend : argsEnd ≤ argsData.length) (hmem : argsData.length < 2 ^ t.bits) (fuel offset : ℕ)
    (args : List DecodedArg) (hoff : offset ≤ argsEnd) (hfuel : argsEnd - offset ≤ fuel)
    (hsafe : ∀ ds rest, Walk dec args.length (slice argsData offset (argsEnd - offset)) ds rest →
      SafeCall (dec (args.length + ds.length)) rest) :
    Explains dec args (slice argsData offset (argsEnd - offset))
      (decodeArgs t dec argsData argsEnd fuel offset args) := by
  induction fuel generalizing offset args with
  | zero =>
    have hz : argsEnd - offset = 0 := by omega
    rw [decodeArgs_done (by omega), hz]
    exact Explains.nil dec args
  | succ fuel ih =>
    by_cases hlt : offset < argsEnd
    · set bytes := slice argsData offset (argsEnd - offset) with hbytes
      have hlen : bytes.length = argsEnd - offset := slice_length_of_le (by omega)
      have hne : bytes ≠ [] := by
        intro h
        rw [h, List.length_nil] at hlen
        omega
      rw [decodeArgs_step hlt hend, ← hbytes]
      rcases decodeOne_cases (by omega) (hsafe [] _ (.done ..)) with
        ⟨ho, hp⟩ | ⟨ho, ⟨e, he⟩ | ⟨d, n, hok, hpos, hn⟩⟩
      · replace hp : decodeOne t (dec args.length) bytes = .panic := hp
        rw [hp]
        apply Explains.of_stuck hne
        · rw [hp]
          rintro v ⟨⟩
        · rintro out ⟨⟩
        · exact ⟨fun _ => ho, fun _ => rfl⟩
      · replace he : decodeOne t (dec args.length) bytes = .err e := he
        rw [he]
        apply Explains.of_stuck hne
        · rw [he]
          rintro v ⟨⟩
        · rintro out ⟨⟩
        · exact ⟨fun h => (by cases h), fun h => absurd h ho⟩
      · replace hok : decodeOne t (dec args.length) bytes = .ok (d, n) := hok
        have hadd : (t.add offset n : Decoded ℕ) = .ok (offset + n) :=
          Target.add_of_lt (by omega)
        have hdrop : bytes.drop n = slice argsData (offset + n) (argsEnd - (offset + n)) := by
          rw [hbytes, slice, slice, List.drop_take, List.drop_drop, Nat.sub_sub]
        rw [hok, Outcome.ok_bind, hadd, Outcome.ok_bind]
        apply Explains.next hok ho
        rw [hdrop]
        apply ih (offset + n) (args ++ [d]) (by omega) (by omega)
        intro ds rest hw
        rw [← hdrop, List.length_append, List.length_singleton] at hw
        have hs := hsafe (d :: ds) rest (.next hok hw)
        rw [List.length_append, List.length_singleton, Nat.add_assoc, Nat.add_comm 1]
        exact hs
    · have hz : argsEnd - offset = 0 := by omega
      rw [decodeArgs_done hlt, hz]
      exact Explains.nil dec args

theorem not_overflows_w64 (hw : t.pointer = .w64) (bytes : List UInt8) : ¬ Overflows t bytes := by
  have hbits : 2 ^ t.bits = 2 ^ 64 := by
    rw [Target.bits, Target.ptrBytes, hw]
    rfl
  have hptr : t.ptrBytes = 8 := by rw [Target.ptrBytes, hw]
  cases bytes with
  | nil => exact id
  | cons tagByte rest =>
    simp only [Overflows, hbits, hptr]
    split
    · have := readLen_lt t rest 0
      omega
    · have := readLen_lt t rest 8
      omega
    · exact id

theorem decodeRecord_short {data : List UInt8} (h : argsRegion t data = none) :
    decodeRecord t dec data = .err .bufferTooShort := by
  have hlen : ¬ RecordHeader.SIZE t + (RecordHeader.readUnaligned t data).encodedArgsSize.toNat ≤
      data.length := by
    intro hle
    rw [argsRegion, if_pos hle] at h
    cases h
  unfold decodeRecord
  split
  · rfl
  · have hdrop : (data.drop (RecordHeader.SIZE t)).length = data.length - RecordHeader.SIZE t :=
      List.length_drop
    rw [if_pos (by omega)]

/-- With everything there, the result of `decode_record` is that of its loop. -/
theorem decodeRecord_explains {data region : List UInt8} (hmem : data.length < 2 ^ t.bits)
    (h : argsRegion t data = some region)
    (hsafe : ∀ ds rest, Walk dec 0 region ds rest → SafeCall (dec ds.length) rest) :
    ∃ r, Explains dec [] region r ∧ decodeRecord t dec data = r.map fun args => {
      timestampNs := (RecordHeader.readUnaligned t data).timestampNs
      loggerPtr := (RecordHeader.readUnaligned t data).loggerPtr
      metadata := (RecordHeader.readUnaligned t data).metadataPtr
      args } := by
  simp only [argsRegion] at h
  split at h
  · obtain rfl := Option.some.inj h
    set argsEnd := (RecordHeader.readUnaligned t data).encodedArgsSize.toNat with hargs
    set argsData := data.drop (RecordHeader.SIZE t) with hdata
    have hdrop : argsData.length = data.length - RecordHeader.SIZE t := List.length_drop
    have hslice : slice data (RecordHeader.SIZE t) argsEnd =
        slice argsData 0 (argsEnd - 0) := rfl
    refine ⟨decodeArgs t dec argsData argsEnd argsEnd 0 [], ?_, ?_⟩
    · have hend : argsEnd ≤ argsData.length := by omega
      rw [hslice] at hsafe ⊢
      apply decodeArgs_explains hend (by omega) argsEnd 0 [] (Nat.zero_le _) le_rfl
      intro ds rest hw
      rw [List.length_nil, Nat.zero_add]
      exact hsafe ds rest hw
    · unfold decodeRecord
      rw [if_neg (by omega)]
      simp only [← hargs, ← hdata]
      rw [if_neg (by omega)]
      rfl
  · cases h

/-- The decoder panics on bytes in memory exactly if a length prefix it reaches ends beyond
`usize::MAX`, which needs a 32-bit target. What it accepts lies in bounds, and a record is
accepted exactly if its header and its arguments are all there and the arguments split
into ones that `decode_one` accepts. -/
theorem decoder_total_iff (t : Target) (data : List UInt8) (hmem : data.length < 2 ^ (t.bits - 1)) :
    (∀ dec : Decoders t, SafeCall dec data →
      (decodeOne t dec data ≠ .panic ↔ ¬ Overflows t data) ∧
      ∀ d n, decodeOne t dec data = .ok (d, n) → 1 ≤ n ∧ n ≤ data.length) ∧
    (∀ dec : ℕ → Decoders t,
      (∀ region ds rest, argsRegion t data = some region → Walk dec 0 region ds rest →
        SafeCall (dec ds.length) rest) →
      (decodeRecord t dec data ≠ .panic ↔ ∀ region ds rest, argsRegion t data = some region →
        Walk dec 0 region ds rest → ¬ Overflows t rest) ∧
      ((∃ r, decodeRecord t dec data = .ok r) ↔ ∃ region ds, argsRegion t data = some region ∧
        Walk dec 0 region ds [])) ∧
    (t.pointer = .w64 → ∀ bytes, ¬ Overflows t bytes) := by
  have hmem : data.length < 2 ^ t.bits :=
    hmem.trans_le (Nat.pow_le_pow_right (by norm_num) (Nat.sub_le _ _))
  refine ⟨fun dec hsafe => ?_, fun dec hsafe => ?_, not_overflows_w64⟩
  · rcases decodeOne_cases hmem hsafe with ⟨ho, hp⟩ | ⟨ho, ⟨e, he⟩ | ⟨d, n, hok, hpos, hn⟩⟩
    · rw [hp]
      exact ⟨⟨fun h => absurd rfl h, fun h => absurd ho h⟩, by rintro d n ⟨⟩⟩
    · rw [he]
      exact ⟨⟨fun _ => ho, by rintro _ ⟨⟩⟩, by rintro d n ⟨⟩⟩
    · rw [hok]
      refine ⟨⟨fun _ => ho, by rintro _ ⟨⟩⟩, ?_⟩
      rintro d' n' h
      obtain ⟨rfl, rfl⟩ := Prod.mk.inj (Outcome.ok.inj h)
      exact ⟨hpos, hn⟩
  · cases hregion : argsRegion t data with
    | none =>
      rw [decodeRecord_short hregion]
      exact ⟨⟨by rintro _ _ _ _ ⟨⟩, by rintro _ ⟨⟩⟩, by rintro ⟨_, ⟨⟩⟩, by rintro ⟨_, _, ⟨⟩, -⟩⟩
    | some region =>
      have hwalk : ∀ ds rest, Walk dec 0 region ds rest → SafeCall (dec ds.length) rest :=
        fun ds rest => hsafe region ds rest hregion
      obtain ⟨r, hr, heq⟩ := decodeRecord_explains hmem hregion hwalk
      have hpanic : decodeRecord t dec data = .panic ↔ r = .panic := by
        rw [heq]
        cases r <;> simp
      have hok : (∃ x, decodeRecord t dec data = .ok x) ↔ ∃ ds, r = .ok ds := by
        rw [heq]
        cases r <;> simp
      constructor
      · rw [Ne, hpanic, hr.panic_iff]
        constructor
        · rintro h _ ds rest ⟨⟩ hw ho
          exact h ⟨ds, rest, hw, ho⟩
        · rintro h ⟨ds, rest, hw, ho⟩
          exact h region ds rest rfl hw ho
      · rw [hok]
        constructor
        · rintro ⟨ds, h⟩
          obtain ⟨ds', -, hw⟩ := (hr.ok_iff ds).mp h
          exact ⟨region, ds', rfl, hw⟩
        · rintro ⟨_, ds, ⟨⟩, hw⟩
          exact ⟨ds, (hr.ok_iff ds).mpr ⟨ds, rfl, hw⟩⟩

/-- Without checks and with them, on a 32-bit target. -/
def narrow (checks : Bool) : Target := ⟨.w32, .little, checks⟩

/-- A header that announces five bytes of arguments: a string tag and a length. -/
def hugeLength : List UInt8 :=
  List.replicate 16 0 ++ [5, 0, 0, 0] ++ [0, 0, 0, 0] ++ [13, 255, 255, 255, 255]

/-- On a well-formed short record the decoder stops with an error or a value. -/
theorem decoder_total_iff_text :
    decodeOne (narrow true) (fun _ _ => .panic) [13, 2, 0, 0, 0, 104] ≠ .panic := by
  have hcall : SafeCall (t := narrow true) (fun _ _ => .panic) [13, 2, 0, 0, 0, 104] := by
    intro h
    exact absurd h (by decide)
  have hfit : ¬ Overflows (narrow true) [13, 2, 0, 0, 0, 104] := fun h =>
    absurd h.2 (by decide)
  exact (((decoder_total_iff (narrow true) [13, 2, 0, 0, 0, 104] (by decide)).1 _ hcall).1).mpr hfit

/-- A string length of `u32::MAX` makes `decode_one` and `decode_record` panic on a 32-bit
target, with or without checks, although no custom argument is involved. -/
theorem decode_huge_length_panics :
    (decodeOne (narrow true) (fun _ _ => .ok "") [13, 255, 255, 255, 255] = .panic ∧
      decodeRecord (narrow true) (fun _ _ _ => .ok "") hugeLength = .panic) ∧
    decodeOne (narrow false) (fun _ _ => .ok "") [13, 255, 255, 255, 255] = .panic ∧
      decodeRecord (narrow false) (fun _ _ _ => .ok "") hugeLength = .panic :=
  ⟨⟨rfl, rfl⟩, rfl, rfl⟩

end Insomnilog.Wire
