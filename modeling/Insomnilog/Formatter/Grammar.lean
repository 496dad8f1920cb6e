import Insomnilog.Formatter.RoundTrip

/-! The documented grammar of format specs, and which strings `parse_format_spec` accepts
beyond it. -/
namespace Insomnilog.Formatter

/-- What `[[fill] align]` can stand for. -/
inductive AlignPart where
  | absent
  | align (a : Align)
  | fillAlign (fill : Char) (a : Align)

namespace AlignPart

def text : AlignPart → Text
  | absent => []
  | align a => [a.toChar]
  | fillAlign f a => [f, a.toChar]

def fill : AlignPart → Char
  | fillAlign f _ => f
  | _ => ' '

def alignment : AlignPart → Option Align
  | absent => none
  | align a => some a
  | fillAlign _ a => some a

end AlignPart

/-- A string cut into the parts of `[[fill] align] ['0'] [width]`. -/
structure Reading where
  part : AlignPart
  zero : Bool
  width : Text

/-- A non-empty string of decimal digits whose value fits `usize`. -/
structure IsWidth (bits : ℕ) (width : Text) : Prop where
  nonempty : width ≠ []
  digits : ∀ c ∈ width, c.isDigit = true
  fits : Nat.ofDigitChars 10 width 0 < 2 ^ bits

namespace Reading

def text (r : Reading) : Text := r.part.text ++ (printZero r.zero ++ r.width)

/-- An absent width is zero. -/
def spec (r : Reading) : FormatSpec :=
  ⟨r.part.fill, r.part.alignment, r.zero, Nat.ofDigitChars 10 r.width 0⟩

def Valid (bits : ℕ) (r : Reading) : Prop := r.width = [] ∨ IsWidth bits r.width

/-- A fill is read where an alignment follows, and a leading zero is read as the flag. -/
structure Greedy (r : Reading) : Prop where
  fill : (∃ a, r.text.tail.head?.bind toAlign = some a) → ∃ f a, r.part = .fillAlign f a
  zero : r.zero = false → r.width.head? ≠ some '0'

end Reading

/-- The parser accepts `s` if and only if the grammar does, reads it as the grammar says, and
otherwise reports it. -/
structure SpecSound (bits : ℕ) (s : Text) : Prop where
  accepts : (∃ spec, parseFormatSpec bits s = .ok spec) ↔ ∃ r : Reading, r.Valid bits ∧ r.text = s
  meaning : ∀ spec, parseFormatSpec bits s = .ok spec →
    (∃ r : Reading, r.Valid bits ∧ r.Greedy ∧ r.text = s) ∧
      ∀ r : Reading, r.Valid bits → r.Greedy → r.text = s → spec = r.spec
  rejects : (∀ spec, parseFormatSpec bits s ≠ .ok spec) →
    parseFormatSpec bits s = .error (.invalidFormatSpec s)

/-- A plus sign stands in front of the width. -/
def Signed (bits : ℕ) (s : Text) : Prop :=
  ∃ (part : AlignPart) (zero : Bool) (digits : Text),
    s = part.text ++ (printZero zero ++ '+' :: digits) ∧ IsWidth bits digits

variable {bits : ℕ} {s : Text} {r : Reading}

theorem parseUsize_width {width : Text} (h : IsWidth bits width) :
    parseUsize bits width = some (Nat.ofDigitChars 10 width 0) := by
  have hall : width ≠ [] ∧ width.all Char.isDigit = true :=
    ⟨h.nonempty, List.all_eq_true.mpr h.digits⟩
  unfold parseUsize
  split
  next rest =>
    have hplus := h.digits '+' List.mem_cons_self
    exact absurd hplus (by decide)
  next => simp only [if_pos hall, if_pos h.fits]

theorem parseUsize_plus {digits : Text} (h : IsWidth bits digits) :
    parseUsize bits ('+' :: digits) = some (Nat.ofDigitChars 10 digits 0) := by
  have hall : digits ≠ [] ∧ digits.all Char.isDigit = true :=
    ⟨h.nonempty, List.all_eq_true.mpr h.digits⟩
  simp only [parseUsize, if_pos hall, if_pos h.fits]

/-- What `usize::from_str` accepts is a width, or a width after a plus sign. -/
theorem parseUsize_some {chars : Text} {n : ℕ} (h : parseUsize bits chars = some n) :
    IsWidth bits chars ∨ ∃ digits, chars = '+' :: digits ∧ IsWidth bits digits := by
  have hwidth {digits : Text}
      (h : (if digits ≠ [] ∧ digits.all Char.isDigit then
        if Nat.ofDigitChars 10 digits 0 < 2 ^ bits then some (Nat.ofDigitChars 10 digits 0)
        else none
        else none) = some n) : IsWidth bits digits := by
    split at h
    next hd =>
      split at h
      next hfits => exact ⟨hd.1, List.all_eq_true.mp hd.2, hfits⟩
      next => cases h
    next => cases h
  unfold parseUsize at h
  dsimp only at h
  split at h
  next digits => exact .inr ⟨digits, rfl, hwidth h⟩
  next => exact .inl (hwidth h)

/-- The special case of the empty spec makes no difference. -/
theorem parseFormatSpec_eq (bits : ℕ) (s : Text) : parseFormatSpec bits s =
    (let (fill, align, chars) := splitAlign s
    let (zeroPad, rest) := splitZero chars
    if rest = [] then .ok ⟨fill, align, zeroPad, 0⟩
    else
      match parseUsize bits rest with
      | some width => .ok ⟨fill, align, zeroPad, width⟩
      | none => .error (.invalidFormatSpec s)) := by
  unfold parseFormatSpec
  split
  next hs =>
    rw [hs]
    rfl
  next => rfl

/-- Whatever follows the alignment part, if no alignment is among it. -/
theorem splitAlign_text (part : AlignPart) {rest : Text} (h : ∀ c ∈ rest, toAlign c = none) :
    splitAlign (part.text ++ rest) = (part.fill, part.alignment, rest) := by
  cases part with
  | absent => exact splitAlign_none h
  | align a =>
    cases rest with
    | nil => cases a <;> rfl
    | cons c rest =>
      have hc : toAlign c = none := h c List.mem_cons_self
      simp [splitAlign, AlignPart.text, AlignPart.fill, AlignPart.alignment, hc]
  | fillAlign f a => exact splitAlign_some f a rest

theorem splitZero_text (zero : Bool) {rest : Text} (h : zero = false → rest.head? ≠ some '0') :
    splitZero (printZero zero ++ rest) = (zero, rest) := by
  cases zero with
  | true => rfl
  | false => exact splitZero_print false (h rfl)

/-- The cut after the alignment part. -/
theorem splitAlign_part (s : Text) : ∃ part : AlignPart,
    splitAlign s = (part.fill, part.alignment, (splitAlign s).2.2) ∧
      part.text ++ (splitAlign s).2.2 = s ∧
      ((∃ a, s.tail.head?.bind toAlign = some a) → ∃ f a, part = .fillAlign f a) := by
  have hchar {c : Char} {a : Align} (h : toAlign c = some a) : a.toChar = c := by
    unfold toAlign at h
    split at h <;> cases h <;> rfl
  -- a single character is no fill
  have hshort {c : Char} {cs : Text} (hnext : cs.head?.bind toAlign = none) :
      ∃ part : AlignPart, splitAlign (c :: cs) =
          (part.fill, part.alignment, (splitAlign (c :: cs)).2.2) ∧
        part.text ++ (splitAlign (c :: cs)).2.2 = c :: cs := by
    cases hc : toAlign c with
    | none =>
      have hsplit : splitAlign (c :: cs) = (' ', none, c :: cs) := by
        simp only [splitAlign, List.tail_cons, hnext, List.head?_cons, Option.bind_some, hc]
      exact ⟨.absent, by rw [hsplit]; rfl, by rw [hsplit]; rfl⟩
    | some a =>
      have hsplit : splitAlign (c :: cs) = (' ', some a, cs) := by
        simp only [splitAlign, List.tail_cons, hnext, List.head?_cons, Option.bind_some, hc,
          List.drop_one]
      exact ⟨.align a, by rw [hsplit]; rfl, by rw [hsplit, ← hchar hc]; rfl⟩
  cases s with
  | nil => exact ⟨.absent, rfl, rfl, by rintro ⟨a, ha⟩; cases ha⟩
  | cons c cs =>
    cases hnext : cs.head?.bind toAlign with
    | none =>
      obtain ⟨part, hsplit, htext⟩ := hshort hnext
      exact ⟨part, hsplit, htext, by rintro ⟨a, ha⟩; cases hnext.symm.trans ha⟩
    | some a =>
      cases cs with
      | nil => cases hnext
      | cons d rest =>
        have hd : toAlign d = some a := hnext
        have hsplit : splitAlign (c :: d :: rest) = (c, some a, rest) := by
          rw [← hchar hd]
          exact splitAlign_some c a rest
        refine ⟨.fillAlign c a, by rw [hsplit]; rfl, ?_, fun _ => ⟨c, a, rfl⟩⟩
        rw [hsplit, ← hchar hd]
        rfl

theorem splitZero_part (chars : Text) :
    printZero (splitZero chars).1 ++ (splitZero chars).2 = chars ∧
      ((splitZero chars).1 = false → (splitZero chars).2.head? ≠ some '0') := by
  unfold splitZero
  split
  · exact ⟨rfl, by simp⟩
  next h =>
    refine ⟨rfl, fun _ hhead => ?_⟩
    obtain ⟨rest, rfl⟩ := List.head?_eq_some_iff.mp hhead
    exact h rest rfl

/-- What is read as flag and width contains no alignment. -/
theorem Reading.Valid.plain (h : r.Valid bits) : ∀ c ∈ printZero r.zero ++ r.width,
    c.isDigit = true := by
  intro c hc
  rcases List.mem_append.mp hc with hc | hc
  · cases hz : r.zero with
    | true =>
      rw [hz] at hc
      rw [List.mem_singleton.mp hc]
      rfl
    | false =>
      rw [hz] at hc
      cases hc
  · rcases h with hnil | hwidth
    · rw [hnil] at hc
      cases hc
    · exact hwidth.digits c hc

/-- A greedy reading is what the parser returns. -/
theorem parseFormatSpec_reading (hvalid : r.Valid bits) (hgreedy : r.Greedy) :
    parseFormatSpec bits r.text = .ok r.spec := by
  have hplain : ∀ c ∈ printZero r.zero ++ r.width, toAlign c = none :=
    fun c hc => toAlign_digit (hvalid.plain c hc)
  rw [parseFormatSpec_eq, Reading.text, splitAlign_text r.part hplain]
  simp only [splitZero_text r.zero hgreedy.zero]
  rcases hvalid with hnil | hwidth
  · rw [if_pos hnil, Reading.spec, hnil]
    rfl
  · rw [if_neg hwidth.nonempty, parseUsize_width hwidth]
    rfl

/-- Only a fill is followed by an alignment. -/
theorem Reading.Valid.fill (h : r.Valid bits)
    (halign : ∃ a, r.text.tail.head?.bind toAlign = some a) : ∃ f a, r.part = .fillAlign f a := by
  obtain ⟨a, ha⟩ := halign
  have hnone {l : Text} (hl : l ⊆ printZero r.zero ++ r.width) :
      l.head?.bind toAlign ≠ some a := by
    cases l with
    | nil => simp
    | cons c l =>
      have hc : toAlign c = none := toAlign_digit (h.plain c (hl List.mem_cons_self))
      simp [hc]
  cases hp : r.part with
  | fillAlign f b => exact ⟨f, b, rfl⟩
  | absent =>
    rw [Reading.text, hp] at ha
    exact absurd ha (hnone (List.tail_subset _))
  | align b =>
    rw [Reading.text, hp] at ha
    exact absurd ha (hnone (List.Subset.refl _))

/-- Every string with a reading has a greedy one. -/
theorem Reading.Valid.greedy (h : r.Valid bits) :
    ∃ r' : Reading, r'.Valid bits ∧ r'.Greedy ∧ r'.text = r.text := by
  by_cases hz : r.zero = false ∧ r.width.head? = some '0'
  · obtain ⟨hzero, hhead⟩ := hz
    obtain ⟨rest, hrest⟩ := List.head?_eq_some_iff.mp hhead
    have hvalid : Valid bits ⟨r.part, true, rest⟩ := by
      by_cases hnil : rest = []
      · exact .inl hnil
      · have hwidth := h.resolve_left (by rw [hrest]; simp)
        rw [hrest] at hwidth
        refine .inr ⟨hnil, fun c hc => hwidth.digits c (List.mem_cons_of_mem _ hc), ?_⟩
        exact hwidth.fits
    refine ⟨⟨r.part, true, rest⟩, hvalid, ⟨hvalid.fill, by simp⟩, ?_⟩
    show r.part.text ++ (printZero true ++ rest) = r.part.text ++ (printZero r.zero ++ r.width)
    rw [hzero, hrest]
    rfl
  · exact ⟨r, h, ⟨h.fill, fun hzero hhead => hz ⟨hzero, hhead⟩⟩, rfl⟩

/-- What follows the alignment part of a signed spec. -/
theorem IsWidth.plain_signed {digits : Text} (h : IsWidth bits digits) (zero : Bool) :
    ∀ c ∈ printZero zero ++ '+' :: digits, toAlign c = none := by
  intro c hc
  rcases List.mem_append.mp hc with hc | hc
  · cases zero with
    | true =>
      rw [List.mem_singleton.mp hc]
      rfl
    | false => cases hc
  · rcases List.mem_cons.mp hc with rfl | hc
    · rfl
    · exact toAlign_digit (h.digits c hc)

theorem Signed.accepted (h : Signed bits s) : ∃ spec, parseFormatSpec bits s = .ok spec := by
  obtain ⟨part, zero, digits, rfl, hwidth⟩ := h
  have hzero : splitZero (printZero zero ++ '+' :: digits) = (zero, '+' :: digits) :=
    splitZero_text zero fun _ => by simp
  rw [parseFormatSpec_eq, splitAlign_text part (hwidth.plain_signed zero)]
  simp only [hzero]
  rw [if_neg (by simp), parseUsize_plus hwidth]
  exact ⟨_, rfl⟩

/-- A signed width is outside of the grammar. -/
theorem Signed.not_valid (h : Signed bits s) (hvalid : r.Valid bits) : r.text ≠ s := by
  intro htext
  obtain ⟨part, zero, digits, hs, hwidth⟩ := h
  have hplain : ∀ c ∈ printZero r.zero ++ r.width, toAlign c = none :=
    fun c hc => toAlign_digit (hvalid.plain c hc)
  -- both are cut at the same place
  have hrest : printZero r.zero ++ r.width = printZero zero ++ '+' :: digits := by
    calc printZero r.zero ++ r.width = (splitAlign r.text).2.2 := by
          rw [Reading.text, splitAlign_text r.part hplain]
      _ = (splitAlign s).2.2 := by rw [htext]
      _ = printZero zero ++ '+' :: digits := by
          rw [hs, splitAlign_text part (hwidth.plain_signed zero)]
  have hplus : ('+' : Char).isDigit = true := hvalid.plain '+' (by rw [hrest]; simp)
  exact absurd hplus (by decide)

/-- What the parser accepts is a greedy reading, unless its width is signed. -/
theorem parseFormatSpec_ok {spec : FormatSpec} (h : parseFormatSpec bits s = .ok spec) :
    Signed bits s ∨ ∃ r : Reading, r.Valid bits ∧ r.Greedy ∧ r.text = s := by
  obtain ⟨part, hsplit, hpart, hfill⟩ := splitAlign_part s
  obtain ⟨hzero, hhead⟩ := splitZero_part (splitAlign s).2.2
  generalize hchars : (splitAlign s).2.2 = chars at hsplit hpart hzero hhead
  generalize hz : (splitZero chars).1 = zero at hzero hhead
  generalize hrest : (splitZero chars).2 = rest at hzero hhead
  have hreading (hvalid : Reading.Valid bits ⟨part, zero, rest⟩) :
      ∃ r : Reading, r.Valid bits ∧ r.Greedy ∧ r.text = s := by
    have htext : Reading.text ⟨part, zero, rest⟩ = s := by
      rw [← hpart, ← hzero]
      rfl
    refine ⟨⟨part, zero, rest⟩, hvalid, ⟨?_, hhead⟩, htext⟩
    rw [htext]
    exact hfill
  rw [parseFormatSpec_eq, hsplit] at h
  simp only [hz, hrest] at h
  split at h
  next hnil => exact .inr (hreading (.inl hnil))
  next =>
    split at h
    next width hwidth =>
      rcases parseUsize_some hwidth with hw | ⟨digits, hdigits, hw⟩
      · exact .inr (hreading (.inr hw))
      · refine .inl ⟨part, zero, digits, ?_, hw⟩
        rw [← hpart, ← hzero, hdigits]
    next => cases h

/-- The only error is that of the whole spec. -/
theorem parseFormatSpec_error {e : InvalidPatternError} (h : parseFormatSpec bits s = .error e) :
    e = .invalidFormatSpec s := by
  rw [parseFormatSpec_eq] at h
  simp only at h
  split at h
  · cases h
  · split at h <;> cases h
    rfl

/-- The parser does what the grammar says if and only if no plus sign stands in front of the
width. -/
theorem spec_sound_iff (bits : ℕ) (s : Text) : SpecSound bits s ↔ ¬ Signed bits s := by
  constructor
  · intro h hsigned
    obtain ⟨r, hvalid, htext⟩ := h.accepts.mp hsigned.accepted
    exact hsigned.not_valid hvalid htext
  · intro hsigned
    constructor
    · constructor
      · rintro ⟨spec, hspec⟩
        obtain ⟨r, hvalid, -, htext⟩ := (parseFormatSpec_ok hspec).resolve_left hsigned
        exact ⟨r, hvalid, htext⟩
      · rintro ⟨r, hvalid, rfl⟩
        obtain ⟨r', hvalid', hgreedy, htext⟩ := hvalid.greedy
        rw [← htext]
        exact ⟨r'.spec, parseFormatSpec_reading hvalid' hgreedy⟩
    · intro spec hspec
      refine ⟨(parseFormatSpec_ok hspec).resolve_left hsigned, ?_⟩
      rintro r hvalid hgreedy rfl
      exact Except.ok.inj (hspec.symm.trans (parseFormatSpec_reading hvalid hgreedy))
    · intro hno
      cases h : parseFormatSpec bits s with
      | ok spec => exact absurd h (hno spec)
      | error e => rw [parseFormatSpec_error h]

/-- `>+5` is read as a width of five. -/
theorem signed_width_accepted :
    parseFormatSpec 64 ['>', '+', '5'] = .ok ⟨' ', some .right, false, 5⟩ ∧
      (∀ r : Reading, r.Valid 64 → r.text ≠ ['>', '+', '5']) ∧
      ¬ SpecSound 64 ['>', '+', '5'] := by
  have hsigned : Signed 64 ['>', '+', '5'] :=
    ⟨.align .right, false, ['5'], rfl, by decide, by simp, by decide⟩
  refine ⟨by decide, fun r hvalid => hsigned.not_valid hvalid, fun h => ?_⟩
  obtain ⟨r, hvalid, htext⟩ := h.accepts.mp hsigned.accepted
  exact hsigned.not_valid hvalid htext

end Insomnilog.Formatter
