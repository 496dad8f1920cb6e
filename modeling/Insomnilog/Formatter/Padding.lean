import Insomnilog.Formatter.Render

/-! The documented rendering of a pattern: its segments in order, each field padded to its
width. -/
namespace Insomnilog.Formatter

/-- String fields default to the left, numeric ones to the right. -/
def FieldKind.defaultAlign : FieldKind → Align
  | secs => .right
  | millis => .right
  | line => .right
  | level => .left
  | file => .left
  | module => .left
  | logger => .left
  | message => .left

namespace ParsedField

/-- The zero flag overrides the fill. -/
def paddingFill (f : ParsedField) : Char := if f.spec.zeroPad then '0' else f.spec.fill

/-- It overrides the alignment too, which otherwise defaults to that of the field. -/
def paddingAlign (f : ParsedField) : Align :=
  if f.spec.zeroPad then .right else f.spec.align.getD f.kind.defaultAlign

end ParsedField

/-- `l` characters of padding stand on the left, and `r` on the right. -/
def Align.Splits (l r : ℕ) : Align → Prop
  | left => l = 0
  | right => r = 0
  | center => l = (l + r) / 2 ∧ r = (l + r + 1) / 2

/-- The whole value, padded to the width of the field. -/
structure Padded (f : ParsedField) (value text : Text) : Prop where
  length : text.length = max f.spec.width value.length
  sides : ∃ l r, f.paddingAlign.Splits l r ∧
    text = List.replicate l f.paddingFill ++ value ++ List.replicate r f.paddingFill

/-- The value of a field, before it is padded. -/
def fieldValue (floats : FloatText) (record : LogRecord) (kind : FieldKind) : Text :=
  renderField floats kind record (record.timestampNs.toNat / 10 ^ 9)
    (record.timestampNs.toNat % 10 ^ 9 / 10 ^ 6)

/-- What an element of a pattern contributes to the output. -/
def Renders (floats : FloatText) (record : LogRecord) : PatternElement → Text → Prop
  | .literal s, text => text = s
  | .field f, text => Padded f (fieldValue floats record f.kind) text

/-- The elements stand for consecutive segments of the pattern, from its start to its end. -/
inductive Segments (bits : ℕ) : List PatternElement → Text → Prop where
  | nil : Segments bits [] []
  | literal {text rest : Text} {es : List PatternElement} (hne : text ≠ []) (hbrace : '{' ∉ text)
      (h : Segments bits es rest) : Segments bits (.literal text :: es) (text ++ rest)
  | field {token rest : Text} {f : ParsedField} {es : List PatternElement} (hbrace : '}' ∉ token)
      (hparse : parseField bits token = .ok f) (h : Segments bits es rest) :
      Segments bits (.field f :: es) ('{' :: (token ++ '}' :: rest))

variable {bits : ℕ} {pattern : Text} {elements : List PatternElement}

theorem FieldKind.defaultAlign_eq (kind : FieldKind) :
    kind.defaultAlign = if kind.isNumeric then .right else .left := by
  cases kind <;> rfl

/-- A value narrower than its field is padded by the documented fill and alignment. -/
theorem applyFormatSpec_narrow (f : ParsedField) (buf : Text) {value : Text}
    (h : value.length < f.spec.width) :
    applyFormatSpec buf value f.spec f.kind.isNumeric =
      let padding := f.spec.width - value.length
      match f.paddingAlign with
      | .left => buf ++ value ++ List.replicate padding f.paddingFill
      | .right => buf ++ List.replicate padding f.paddingFill ++ value
      | .center => buf ++ List.replicate (padding / 2) f.paddingFill ++ value ++
          List.replicate (padding - padding / 2) f.paddingFill := by
  have hfill : (if f.spec.zeroPad then ('0', Align.right) else
      (f.spec.fill, f.spec.align.getD (if f.kind.isNumeric then .right else .left))) =
      (f.paddingFill, f.paddingAlign) := by
    unfold ParsedField.paddingFill ParsedField.paddingAlign
    rw [FieldKind.defaultAlign_eq]
    split <;> rfl
  have hzero : f.spec.width ≠ 0 := Nat.ne_of_gt (Nat.zero_lt_of_lt h)
  unfold applyFormatSpec
  rewrite [if_neg hzero, if_neg (Nat.not_le.mpr h), hfill]
  rfl

/-- The documented padding is what `apply_format_spec` does. -/
theorem applyFormatSpec_padded (f : ParsedField) (value : Text) :
    ∃ text, Padded f value text ∧
      ∀ buf, applyFormatSpec buf value f.spec f.kind.isNumeric = buf ++ text := by
  by_cases hwide : f.spec.width ≤ value.length
  · refine ⟨value, ⟨(Nat.max_eq_right hwide).symm, 0, 0, ?_, by simp⟩, fun buf => ?_⟩
    · cases f.paddingAlign
      · rfl
      · rfl
      · exact ⟨rfl, rfl⟩
    · unfold applyFormatSpec
      split
      · rfl
      · exact if_pos hwide
  · have hpad (l r : ℕ) (hsplit : f.paddingAlign.Splits l r)
        (hsum : l + r = f.spec.width - value.length) : Padded f value
          (List.replicate l f.paddingFill ++ value ++ List.replicate r f.paddingFill) := by
      refine ⟨?_, l, r, hsplit, rfl⟩
      simp only [List.length_append, List.length_replicate]
      omega
    have hnarrow (buf : Text) := applyFormatSpec_narrow f buf (Nat.not_le.mp hwide)
    generalize f.spec.width - value.length = padding at hpad hnarrow
    cases halign : f.paddingAlign with
    | left =>
      rw [halign] at hpad hnarrow
      refine ⟨_, hpad 0 padding rfl (Nat.zero_add _), fun buf => ?_⟩
      rw [hnarrow buf]
      simp only [List.replicate_zero, List.nil_append, List.append_assoc]
    | right =>
      rw [halign] at hpad hnarrow
      refine ⟨_, hpad padding 0 rfl (Nat.add_zero _), fun buf => ?_⟩
      rw [hnarrow buf]
      simp only [List.replicate_zero, List.append_nil, List.append_assoc]
    | center =>
      rw [halign] at hpad hnarrow
      have hsum : padding / 2 + (padding - padding / 2) = padding := by omega
      have hsplit : Align.center.Splits (padding / 2) (padding - padding / 2) := by
        rw [Align.Splits, hsum]
        omega
      refine ⟨_, hpad _ _ hsplit hsum, fun buf => ?_⟩
      rw [hnarrow buf]
      simp only [List.append_assoc]

/-- Every element contributes the same text to every buffer. -/
theorem formatElement_renders (floats : FloatText) (record : LogRecord) (e : PatternElement) :
    ∃ text, Renders floats record e text ∧ ∀ out, formatElement floats record
      (record.timestampNs.toNat / 10 ^ 9) (record.timestampNs.toNat % 10 ^ 9 / 10 ^ 6) out e =
        out ++ text := by
  cases e with
  | literal s => exact ⟨s, rfl, fun _ => rfl⟩
  | field f => exact applyFormatSpec_padded f (fieldValue floats record f.kind)

theorem format_renders (floats : FloatText) (elements : List PatternElement) (record : LogRecord) :
    ∃ texts, List.Forall₂ (Renders floats record) elements texts ∧
      ∀ out, format floats elements record out = out ++ texts.flatten := by
  induction elements with
  | nil => exact ⟨[], .nil, fun out => (List.append_nil out).symm⟩
  | cons e es ih =>
    obtain ⟨text, htext, hone⟩ := formatElement_renders floats record e
    obtain ⟨texts, htexts, hrest⟩ := ih
    refine ⟨text :: texts, .cons htext htexts, fun out => ?_⟩
    calc format floats (e :: es) record out
        = format floats es record (out ++ text) := by rw [← hone]; rfl
      _ = out ++ (text :: texts).flatten := by rw [hrest, List.append_assoc]; rfl

/-- What has been read of a placeholder, with its opening brace. -/
def openToken : Option Text → Text
  | none => []
  | some token => '{' :: token

/-- The pending literal is a segment of its own, unless it is empty. -/
theorem Segments.flush {literal rest : Text} {es : List PatternElement} (hliteral : '{' ∉ literal)
    (h : Segments bits es rest) : Segments bits (Formatter.flush [] literal ++ es)
      (literal ++ rest) := by
  unfold Formatter.flush
  split
  next hempty => exact hempty ▸ h
  next hne => exact .literal hne hliteral h

/-- By induction on the characters left, what the scanner adds to its elements stands for the
pending literal, the pending token and these characters. -/
theorem scan_segments {literal : Text} {token : Option Text} {chars : Text}
    {out : List PatternElement} (hliteral : '{' ∉ literal)
    (htoken : ∀ text, token = some text → '}' ∉ text)
    (h : scan bits elements literal token chars = .ok out) :
    ∃ es, out = elements ++ es ∧ Segments bits es (literal ++ openToken token ++ chars) := by
  have hflush (elements : List PatternElement) (literal : Text) :
      flush elements literal = elements ++ flush [] literal := by
    unfold flush
    split
    · exact (List.append_nil elements).symm
    · rfl
  induction chars generalizing elements literal token with
  | nil =>
    unfold scan at h
    split at h
    · cases h
    · have hsegments : Segments bits _ _ := Segments.flush hliteral .nil
      refine ⟨flush [] literal, (Except.ok.inj h).symm.trans (hflush elements literal), ?_⟩
      simpa [openToken] using hsegments
  | cons c chars ih =>
    unfold scan at h
    split at h
    · split at h
      next hc =>
        obtain ⟨es, hout, hes⟩ := ih hliteral (by rintro _ ⟨⟩; exact List.not_mem_nil) h
        refine ⟨es, hout, ?_⟩
        rw [hc]
        simpa [openToken] using hes
      next hc =>
        have hliteral' : '{' ∉ literal ++ [c] := by
          simpa [hliteral] using Ne.symm hc
        obtain ⟨es, hout, hes⟩ := ih hliteral' (by rintro _ ⟨⟩) h
        refine ⟨es, hout, ?_⟩
        simpa [openToken] using hes
    next text =>
      have htext := htoken text rfl
      split at h
      next hc =>
        split at h
        · cases h
        next f hf =>
          obtain ⟨es, hout, hes⟩ := ih List.not_mem_nil (by rintro _ ⟨⟩) h
          have hfield := Segments.flush hliteral (.field htext hf hes)
          refine ⟨flush [] literal ++ .field f :: es, ?_, ?_⟩
          · rw [hout, hflush]
            simp
          · rw [hc]
            simpa [openToken] using hfield
      next hc =>
        have htext' : ∀ text', some (text ++ [c]) = some text' → '}' ∉ text' := by
          rintro _ ⟨⟩
          simpa [htext] using Ne.symm hc
        obtain ⟨es, hout, hes⟩ := ih hliteral htext' h
        refine ⟨es, hout, ?_⟩
        simpa [openToken] using hes

theorem parsePattern_segments (h : parsePattern bits pattern = .ok elements) :
    Segments bits elements pattern := by
  have hnone : ∀ text, (none : Option Text) = some text → '}' ∉ text := by
    rintro _ ⟨⟩
  obtain ⟨es, rfl, hes⟩ := scan_segments List.not_mem_nil hnone h
  exact hes

/-- A pattern that is accepted is cut into the segments that its elements stand for, and a
record is rendered by appending one text for each of them. -/
theorem rendering_follows_pattern (h : parsePattern bits pattern = .ok elements)
    (floats : FloatText) (record : LogRecord) :
    Segments bits elements pattern ∧
      ∃ texts, List.Forall₂ (Renders floats record) elements texts ∧
        ∀ out, format floats elements record out = out ++ texts.flatten := by
  exact ⟨parsePattern_segments h, format_renders floats elements record⟩

/-- A field between two literals. -/
theorem rendering_follows_pattern_bracketed :
    let elements : List PatternElement :=
      [.literal ['['], .field ⟨.level, ⟨'*', some .center, false, 8⟩⟩, .literal [']']]
    let record : LogRecord :=
      ⟨1500000000, "app".toList, ⟨.info, "{}".toList, "a.rs".toList, 7, "m".toList⟩, []⟩
    parsePattern 64 "[{level:*^8}]".toList = .ok elements ∧
      Segments 64 elements "[{level:*^8}]".toList ∧
      ∃ texts, List.Forall₂ (Renders ⟨fun _ => [], fun _ => []⟩ record) elements texts ∧
        ∀ out, format ⟨fun _ => [], fun _ => []⟩ elements record out = out ++ texts.flatten := by
  have h : parsePattern 64 "[{level:*^8}]".toList =
      .ok [.literal ['['], .field ⟨.level, ⟨'*', some .center, false, 8⟩⟩, .literal [']']] := by
    decide
  exact ⟨h, rendering_follows_pattern h _ _⟩

example : format ⟨fun _ => [], fun _ => []⟩
    [.literal ['['], .field ⟨.level, ⟨'*', some .center, false, 9⟩⟩, .literal [']', ' '],
      .field ⟨.millis, ⟨'_', some .left, true, 4⟩⟩]
    ⟨1042000000, "app".toList, ⟨.info, [], [], 7, []⟩, []⟩ [] =
      "[**INFO***] 0042".toList := by decide

end Insomnilog.Formatter
