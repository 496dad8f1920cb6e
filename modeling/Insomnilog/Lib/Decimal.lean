import Mathlib.Algebra.Order.Field.Rat
import Mathlib.Data.Rat.Cast.Order
import Mathlib.Tactic

/-! Decimal numerals, and those with a fixed number of digits after the point. -/
namespace Decimal
variable {k n : ℕ}

/-- The value of a numeral, whose point may be absent. -/
def read (text : List Char) : ℚ :=
  let whole := text.takeWhile (· != '.')
  let frac := (text.dropWhile (· != '.')).drop 1
  Nat.ofDigitChars 10 whole 0 + Nat.ofDigitChars 10 frac 0 / 10 ^ frac.length

/-- The numeral of `n`, with zeros in front up to `k` digits. -/
def padded (k n : ℕ) : List Char :=
  List.replicate (k - (Nat.toDigits 10 n).length) '0' ++ Nat.toDigits 10 n

/-- The numeral of `n / 10 ^ k`, with `k` digits after the point. -/
def fixed (k n : ℕ) : List Char := Nat.toDigits 10 (n / 10 ^ k) ++ '.' :: padded k (n % 10 ^ k)

theorem isDigit_of_mem_toDigits {c : Char} (h : c ∈ Nat.toDigits 10 n) : c.isDigit = true :=
  Nat.isDigit_of_mem_toDigits (by norm_num) le_rfl h

/-- The numeral of a positive number has no zeros in front. -/
theorem toDigits_head (n : ℕ) (hn : 0 < n) : (Nat.toDigits 10 n).head? ≠ some '0' := by
  induction n using Nat.strong_induction_on with
  | _ n ih =>
    rw [Nat.toDigits_eq_if (by norm_num)]
    split
    next hlt =>
      interval_cases n <;> decide
    next hge =>
      rw [List.head?_append_of_ne_nil _ Nat.toDigits_ne_nil]
      exact ih (n / 10) (by omega) (by omega)

theorem isDigit_of_mem_padded {c : Char} (h : c ∈ padded k n) : c.isDigit = true := by
  rcases List.mem_append.mp h with hzero | hdigit
  · rw [List.eq_of_mem_replicate hzero]
    decide
  · exact isDigit_of_mem_toDigits hdigit

theorem ofDigitChars_padded (k n : ℕ) : Nat.ofDigitChars 10 (padded k n) 0 = n := by
  rw [padded, Nat.ofDigitChars_append, Nat.ofDigitChars_replicate_zero, Nat.mul_zero,
    Nat.ofDigitChars_ten_toDigits]

theorem length_padded (hk : 0 < k) (hn : n < 10 ^ k) : (padded k n).length = k := by
  have hle := (Nat.length_toDigits_le_iff (by norm_num) hk).mpr hn
  rw [padded, List.length_append, List.length_replicate]
  omega

theorem read_point {whole : List Char} (hwhole : ∀ c ∈ whole, c.isDigit = true)
    (frac : List Char) : read (whole ++ '.' :: frac) =
      Nat.ofDigitChars 10 whole 0 + Nat.ofDigitChars 10 frac 0 / 10 ^ frac.length := by
  have hne : ∀ c ∈ whole, (c != '.') = true := by
    intro c hc
    rw [bne_iff_ne]
    rintro rfl
    exact absurd (hwhole _ hc) (by decide)
  rw [read, List.takeWhile_append_of_pos hne, List.dropWhile_append_of_pos hne]
  simp

theorem read_fixed (hk : 0 < k) (n : ℕ) : read (fixed k n) = n / 10 ^ k := by
  have hpos : 0 < 10 ^ k := by positivity
  have hfrac := length_padded hk (Nat.mod_lt n hpos)
  have hwhole : ∀ c ∈ Nat.toDigits 10 (n / 10 ^ k), c.isDigit = true :=
    fun _ => isDigit_of_mem_toDigits
  rw [fixed, read_point hwhole, ofDigitChars_padded, hfrac, Nat.ofDigitChars_ten_toDigits]
  have hsplit : (n : ℚ) = 10 ^ k * (n / 10 ^ k : ℕ) + (n % 10 ^ k : ℕ) := by
    exact_mod_cast (Nat.div_add_mod n (10 ^ k)).symm
  rw [hsplit]
  field_simp

/-- The text determines the number. -/
theorem fixed_injective (hk : 0 < k) : Function.Injective (fixed k) := by
  intro n m h
  have hread := congrArg read h
  rw [read_fixed hk, read_fixed hk] at hread
  have hpos : (0 : ℚ) < 10 ^ k := by positivity
  exact_mod_cast (div_left_inj' hpos.ne').mp hread

theorem read_fixed_mono (hk : 0 < k) : Monotone fun n => read (fixed k n) := by
  intro n m h
  show read (fixed k n) ≤ read (fixed k m)
  rw [read_fixed hk, read_fixed hk]
  gcongr

end Decimal
