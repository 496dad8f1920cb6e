import Insomnilog.Formatter.Render
import Insomnilog.Lib.Decimal

/-! The timestamp as the default pattern renders it, in seconds with three decimals. -/
namespace Insomnilog.Formatter
open Wire

/-- `{secs}.{millis:03}`. -/
def timestampPattern : Text := "{secs}.{millis:03}".toList

def timestampElements : List PatternElement :=
  [.field ⟨.secs, .default⟩, .literal ['.'], .field ⟨.millis, ⟨' ', none, true, 3⟩⟩]

/-- The timestamp in whole milliseconds. -/
def LogRecord.timestampMs (record : LogRecord) : ℕ := record.timestampNs.toNat / 10 ^ 6

/-- Texts that are the numeral of the seconds, a dot and three digits, and agree exactly when
the timestamps fall in the same millisecond. As numbers they are ordered as the timestamps. -/
structure ExactTimestamps (text : LogRecord → Text) : Prop where
  shape : ∀ record, ∃ s d, text record = natText s ++ '.' :: d ∧ d.length = 3 ∧
    (∀ c ∈ d, c.isDigit = true) ∧ s * 1000 + Nat.ofDigitChars 10 d 0 = record.timestampMs
  unambiguous : ∀ record record',
    text record = text record' ↔ record.timestampMs = record'.timestampMs
  value : ∀ record, Decimal.read (text record) = record.timestampMs / 1000
  monotone : ∀ record record', record.timestampNs ≤ record'.timestampNs →
    Decimal.read (text record) ≤ Decimal.read (text record')

theorem parsePattern_timestamp (t : Target) :
    parsePattern t.bits timestampPattern = .ok timestampElements := by
  have hbits : t.bits = 32 ∨ t.bits = 64 := by
    unfold Target.bits Target.ptrBytes
    cases t.pointer
    · exact .inl rfl
    · exact .inr rfl
  rcases hbits with h | h
  · rw [h]
    decide
  · rw [h]
    decide

/-- The zero flag fills a number with zeros up to the width, and never cuts it. -/
theorem applyFormatSpec_zeroPad (buf : Text) (n width : ℕ) (fill : Char) (align : Option Align)
    (isNumeric : Bool) : applyFormatSpec buf (natText n) ⟨fill, align, true, width⟩ isNumeric =
      buf ++ Decimal.padded width n := by
  unfold applyFormatSpec natText Decimal.padded
  by_cases hwide : width ≤ (Nat.toDigits 10 n).length
  · rw [Nat.sub_eq_zero_of_le hwide]
    split
    · rfl
    · exact if_pos hwide
  · have hzero : width ≠ 0 := by omega
    rw [if_neg hzero, if_neg hwide]
    exact List.append_assoc _ _ _

/-- The two fields are the quotient and the remainder of the milliseconds. -/
theorem format_timestamp (floats : FloatText) (record : LogRecord) (out : Text) :
    format floats timestampElements record out = out ++ Decimal.fixed 3 record.timestampMs := by
  have hsecs : record.timestampNs.toNat / 1000000000 = record.timestampMs / 10 ^ 3 := by
    rw [LogRecord.timestampMs]
    omega
  have hmillis : record.timestampNs.toNat % 1000000000 / 1000000 =
      record.timestampMs % 10 ^ 3 := by
    rw [LogRecord.timestampMs]
    omega
  calc format floats timestampElements record out
      = applyFormatSpec (out ++ natText (record.timestampNs.toNat / 1000000000) ++ ['.'])
          (natText (record.timestampNs.toNat % 1000000000 / 1000000)) ⟨' ', none, true, 3⟩ true :=
        rfl
    _ = out ++ Decimal.fixed 3 record.timestampMs := by
        rw [applyFormatSpec_zeroPad, hsecs, hmillis]
        simp [Decimal.fixed, natText]

theorem ExactTimestamps.fixed : ExactTimestamps fun record =>
    Decimal.fixed 3 record.timestampMs where
  shape record := by
    refine ⟨record.timestampMs / 10 ^ 3, Decimal.padded 3 (record.timestampMs % 10 ^ 3), rfl,
      Decimal.length_padded (by norm_num) (Nat.mod_lt _ (by norm_num)),
      fun _ => Decimal.isDigit_of_mem_padded, ?_⟩
    rw [Decimal.ofDigitChars_padded]
    omega
  unambiguous record record' := by
    exact (Decimal.fixed_injective (by norm_num)).eq_iff
  value record := by
    rw [Decimal.read_fixed (by norm_num)]
    norm_num
  monotone record record' h := by
    exact Decimal.read_fixed_mono (by norm_num) (Nat.div_le_div_right h)

/-- For every timestamp, and whatever the buffer holds. -/
theorem timestamp_exact (t : Target) (floats : FloatText) :
    ∃ elements, parsePattern t.bits timestampPattern = .ok elements ∧
      ∃ text : LogRecord → Text, ExactTimestamps text ∧
        ∀ record out, format floats elements record out = out ++ text record :=
  ⟨timestampElements, parsePattern_timestamp t, _, ExactTimestamps.fixed,
    format_timestamp floats⟩

end Insomnilog.Formatter
