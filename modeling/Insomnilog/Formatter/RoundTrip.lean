import Insomnilog.Formatter.Pattern
import Insomnilog.Lib.Decimal

/-! Printing an element list as a pattern, and what the parser makes of it. -/
namespace Insomnilog.Formatter

def Align.toChar : Align → Char
  | left => '<'
  | right => '>'
  | center => '^'

/-- Fill and alignment, both when an alignment is set. -/
def printAlign (fill : Char) : Option Align → Text
  | some a => [fill, a.toChar]
  | none => []

def printZero (zeroPad : Bool) : Text := if zeroPad then ['0'] else []

def printWidth (width : ℕ) : Text := if 0 < width then Nat.toDigits 10 width else []

/-- A spec in the documented grammar. -/
def FormatSpec.print (s : FormatSpec) : Text :=
  printAlign s.fill s.align ++ (printZero s.zeroPad ++ printWidth s.width)

/-- What stands between the braces of a placeholder. -/
def ParsedField.token (f : ParsedField) : Text :=
  f.kind.name ++ (if f.spec = .default then [] else ':' :: f.spec.print)

def PatternElement.print : PatternElement → Text
  | literal text => text
  | field f => '{' :: f.token ++ ['}']

def print (elements : List PatternElement) : Text := elements.flatMap PatternElement.print

/-- Without an alignment there is no fill to choose, and the width fits `usize`. -/
structure FormatSpec.Normal (bits : ℕ) (s : FormatSpec) : Prop where
  fill : s.align = none → s.fill = ' '
  width : s.width < 2 ^ bits

/-- The element can stand in a parsed pattern. -/
def PatternElement.Normal (bits : ℕ) : PatternElement → Prop
  | literal text => text ≠ [] ∧ '{' ∉ text
  | field f => f.spec.Normal bits

/-- No two literals are adjacent. -/
def Separated : List PatternElement → Prop
  | [] => True
  | .literal _ :: .literal _ :: _ => False
  | _ :: rest => Separated rest

/-- The fill is printed and would close the placeholder. -/
def PatternElement.ClosesEarly : PatternElement → Prop
  | literal _ => False
  | field f => f.spec.align ≠ none ∧ f.spec.fill = '}'

variable {bits : ℕ} {elements : List PatternElement} {literal : Text}

@[simp] theorem toAlign_toChar (a : Align) : toAlign a.toChar = some a := by
  cases a <;> rfl

theorem toAlign_digit {c : Char} (h : c.isDigit = true) : toAlign c = none := by
  unfold toAlign
  split
  · exact absurd h (by decide)
  · exact absurd h (by decide)
  · exact absurd h (by decide)
  · rfl

theorem parseUsize_toDigits {n : ℕ} (hn : n < 2 ^ bits) :
    parseUsize bits (Nat.toDigits 10 n) = some n := by
  have hplus : ∀ rest, Nat.toDigits 10 n ≠ '+' :: rest := by
    intro rest h
    have hd : ('+' : Char).isDigit = true := Decimal.isDigit_of_mem_toDigits (n := n) (by rw [h]; simp)
    exact absurd hd (by decide)
  have hall : (Nat.toDigits 10 n).all Char.isDigit = true :=
    List.all_eq_true.mpr fun c hc => Decimal.isDigit_of_mem_toDigits hc
  unfold parseUsize
  split
  next rest heq => exact absurd heq (hplus rest)
  next =>
    have hd : Nat.toDigits 10 n ≠ [] ∧ (Nat.toDigits 10 n).all Char.isDigit = true :=
      ⟨Nat.toDigits_ne_nil, hall⟩
    simp only [if_pos hd, Nat.ofDigitChars_ten_toDigits, if_pos hn]

/-- The digits a width is printed as. -/
theorem printWidth_spec (width : ℕ) :
    (∀ c ∈ printWidth width, c.isDigit = true) ∧ (printWidth width).head? ≠ some '0' ∧
      (printWidth width = [] ↔ width = 0) := by
  by_cases h : 0 < width
  · rw [printWidth, if_pos h]
    refine ⟨fun c hc => Decimal.isDigit_of_mem_toDigits hc, Decimal.toDigits_head width h, ?_⟩
    exact ⟨fun he => absurd he Nat.toDigits_ne_nil, fun he => by omega⟩
  · rw [printWidth, if_neg h]
    exact ⟨by simp, by simp, ⟨fun _ => by omega, fun _ => rfl⟩⟩

theorem splitAlign_some (f : Char) (a : Align) (rest : Text) :
    splitAlign (f :: a.toChar :: rest) = (f, some a, rest) := by
  simp [splitAlign]

theorem splitAlign_none {spec : Text} (h : ∀ c ∈ spec, toAlign c = none) :
    splitAlign spec = (' ', none, spec) := by
  have hhead : spec.head?.bind toAlign = none := by
    cases spec with
    | nil => rfl
    | cons c cs => exact h c List.mem_cons_self
  have htail : spec.tail.head?.bind toAlign = none := by
    cases spec with
    | nil => rfl
    | cons c cs =>
      cases cs with
      | nil => rfl
      | cons d ds => exact h d (List.mem_cons_of_mem _ List.mem_cons_self)
  unfold splitAlign
  rw [htail, hhead]
  cases spec <;> rfl

theorem splitAlign_print {fill : Char} {align : Option Align} {rest : Text}
    (hfill : align = none → fill = ' ') (hrest : ∀ c ∈ rest, toAlign c = none) :
    splitAlign (printAlign fill align ++ rest) = (fill, align, rest) := by
  cases align with
  | some a => exact splitAlign_some fill a rest
  | none =>
    rw [hfill rfl]
    exact splitAlign_none hrest

theorem splitZero_print (z : Bool) {digits : Text} (h : digits.head? ≠ some '0') :
    splitZero (printZero z ++ digits) = (z, digits) := by
  cases z with
  | true => rfl
  | false =>
    show splitZero digits = (false, digits)
    unfold splitZero
    split
    · exact absurd rfl h
    · rfl

/-- A normal spec is read back as it was printed. -/
theorem parseFormatSpec_print {s : FormatSpec} (h : s.Normal bits) :
    parseFormatSpec bits s.print = .ok s := by
  obtain ⟨fill, align, zeroPad, width⟩ := s
  have hfill : align = none → fill = ' ' := h.fill
  have hwidth : width < 2 ^ bits := h.width
  obtain ⟨hdigits, hhead, hnil⟩ := printWidth_spec width
  have hplain : ∀ c ∈ printZero zeroPad ++ printWidth width, toAlign c = none := by
    intro c hc
    apply toAlign_digit
    rcases List.mem_append.mp hc with hc | hc
    · cases zeroPad with
      | true =>
        rw [List.mem_singleton.mp hc]
        rfl
      | false => cases hc
    · exact hdigits c hc
  unfold parseFormatSpec FormatSpec.print
  simp only [splitAlign_print hfill hplain, splitZero_print zeroPad hhead, hnil]
  split
  next he =>
    -- nothing is printed only for the default
    obtain ⟨ha, hrest⟩ := List.append_eq_nil_iff.mp he
    obtain ⟨hz, hw⟩ := List.append_eq_nil_iff.mp hrest
    rw [hnil.mp hw]
    cases align with
    | some a => cases ha
    | none =>
      cases zeroPad with
      | true => cases hz
      | false => rw [hfill rfl, FormatSpec.default]
  next =>
    split
    next hz => rw [hz]
    next hz => rw [printWidth, if_pos (Nat.pos_of_ne_zero hz), parseUsize_toDigits hwidth]

/-- Every literal character is kept. -/
theorem scan_literal {text : Text} (h : '{' ∉ text) (rest : Text) :
    scan bits elements literal none (text ++ rest) =
      scan bits elements (literal ++ text) none rest := by
  induction text generalizing literal with
  | nil => rw [List.nil_append, List.append_nil]
  | cons c text ih =>
    rw [List.mem_cons, not_or] at h
    obtain ⟨hc, htext⟩ := h
    rw [List.cons_append, scan, if_neg (Ne.symm hc), ih htext, List.append_assoc]
    rfl

/-- A placeholder is cut at the first closing brace. -/
theorem scan_token {token : Text} (h : '}' ∉ token) (pre rest : Text) :
    scan bits elements literal (some pre) (token ++ '}' :: rest) =
      match parseField bits (pre ++ token) with
      | .error e => .error e
      | .ok field => scan bits (flush elements literal ++ [.field field]) [] none rest := by
  induction token generalizing pre with
  | nil =>
    rw [List.nil_append, List.append_nil, scan]
    exact if_pos rfl
  | cons c token ih =>
    rw [List.mem_cons, not_or] at h
    obtain ⟨hc, htoken⟩ := h
    rw [List.cons_append, scan, if_neg (Ne.symm hc), ih htoken, List.append_assoc]
    rfl

theorem name_plain (kind : FieldKind) : ∀ c ∈ kind.name, c ≠ ':' ∧ c ≠ '}' := by
  have hall : (kind.name.all fun c => decide (c ≠ ':' ∧ c ≠ '}')) = true := by
    cases kind <;> decide
  intro c hc
  exact of_decide_eq_true (List.all_eq_true.mp hall c hc)

theorem splitColon_name (kind : FieldKind) : splitColon kind.name = (kind.name, []) := by
  cases kind <;> decide

theorem splitColon_colon (kind : FieldKind) (spec : Text) :
    splitColon (kind.name ++ ':' :: spec) = (kind.name, spec) := by
  have hname : ∀ c ∈ kind.name, (c != ':') = true := by
    intro c hc
    simpa using (name_plain kind c hc).1
  rw [splitColon, List.takeWhile_append_of_pos hname, List.dropWhile_append_of_pos hname]
  simp

theorem parseField_token {f : ParsedField} (h : f.spec.Normal bits) :
    parseField bits f.token = .ok f := by
  unfold ParsedField.token
  split
  next hd =>
    rw [List.append_nil, parseField, splitColon_name, parseFieldKind_name]
    simp only [parseFormatSpec, ↓reduceIte, ← hd]
  next =>
    rw [parseField, splitColon_colon, parseFieldKind_name]
    simp only [parseFormatSpec_print h]

/-- A placeholder that does not close early contains no closing brace. -/
theorem token_closed {f : ParsedField} (hfill : ¬ PatternElement.ClosesEarly (.field f)) :
    '}' ∉ f.token := by
  intro hmem
  obtain ⟨hdigits, -, -⟩ := printWidth_spec f.spec.width
  rcases List.mem_append.mp hmem with hm | hm
  · exact (name_plain f.kind _ hm).2 rfl
  · split at hm
    · cases hm
    · rcases List.mem_cons.mp hm with hm | hm
      · cases hm
      · rcases List.mem_append.mp hm with hm | hm
        · cases ha : f.spec.align with
          | none =>
            rw [ha] at hm
            cases hm
          | some a =>
            rw [ha] at hm
            rcases List.mem_pair.mp hm with hm | hm
            · exact hfill ⟨by simp [ha], hm.symm⟩
            · cases a <;> cases hm
        · rcases List.mem_append.mp hm with hm | hm
          · cases hz : f.spec.zeroPad <;> rw [hz] at hm <;> simp [printZero] at hm
          · exact absurd (hdigits _ hm) (by decide)

theorem scan_field {f : ParsedField} (h : f.spec.Normal bits)
    (hfill : ¬ PatternElement.ClosesEarly (.field f)) (rest : Text) :
    scan bits elements literal none ((PatternElement.field f).print ++ rest) =
      scan bits (flush elements literal ++ [.field f]) [] none rest := by
  have htext : (PatternElement.field f).print ++ rest = '{' :: (f.token ++ '}' :: rest) := by
    simp [PatternElement.print]
  rw [htext, scan, if_pos rfl, scan_token (token_closed hfill), List.nil_append,
    parseField_token h]

/-- A placeholder that closes early is read as the bare field, and the rest of its spec as
literal text. -/
theorem scan_closesEarly {f : ParsedField} (hfill : PatternElement.ClosesEarly (.field f))
    (rest : Text) :
    ∃ tail, scan bits elements literal none ((PatternElement.field f).print ++ rest) =
      scan bits (flush elements literal ++ [.field ⟨f.kind, .default⟩]) [] none tail := by
  obtain ⟨halign, hfill⟩ := hfill
  obtain ⟨a, ha⟩ := Option.ne_none_iff_exists'.mp halign
  have hne : f.spec ≠ .default := by
    intro h
    rw [h] at halign
    exact halign rfl
  have hname : '}' ∉ f.kind.name ++ [':'] := by
    intro hm
    rcases List.mem_append.mp hm with hm | hm
    · exact (name_plain f.kind _ hm).2 rfl
    · exact absurd hm (by decide)
  refine ⟨a.toChar :: (printZero f.spec.zeroPad ++ printWidth f.spec.width) ++ '}' :: rest, ?_⟩
  have htext : (PatternElement.field f).print ++ rest = '{' :: ((f.kind.name ++ [':']) ++ '}' ::
      (a.toChar :: (printZero f.spec.zeroPad ++ printWidth f.spec.width) ++ '}' :: rest)) := by
    simp [PatternElement.print, ParsedField.token, hne, FormatSpec.print, ha, hfill, printAlign]
  have hfield : parseField bits (f.kind.name ++ [':']) = .ok ⟨f.kind, .default⟩ := by
    rw [parseField, splitColon_colon, parseFieldKind_name]
    rfl
  rw [htext, scan, if_pos rfl, scan_token hname, List.nil_append, hfield]

/-- What has been parsed stays in front of the result. -/
theorem scan_prefix {token : Option Text} {chars : Text} {out : List PatternElement}
    (h : scan bits elements literal token chars = .ok out) : elements <+: out := by
  have hflush (elements : List PatternElement) (literal : Text) :
      elements <+: flush elements literal := by
    unfold flush
    split
    · exact List.prefix_rfl
    · exact List.prefix_append _ _
  induction chars generalizing elements literal token with
  | nil =>
    unfold scan at h
    split at h
    · cases h
    · exact Except.ok.inj h ▸ hflush elements literal
  | cons c chars ih =>
    unfold scan at h
    split at h
    · split at h <;> exact ih h
    · split at h
      · split at h
        · cases h
        · exact (hflush elements literal).trans ((List.prefix_append _ _).trans (ih h))
      · exact ih h

theorem Separated.of_field {f : ParsedField} (h : Separated (.field f :: elements)) :
    Separated elements := h

theorem Separated.of_literal {text : Text} (h : Separated (.literal text :: elements)) :
    Separated elements ∧ ∀ text' rest, elements ≠ .literal text' :: rest := by
  cases elements with
  | nil => exact ⟨trivial, by rintro _ _ ⟨⟩⟩
  | cons e rest =>
    cases e with
    | literal => exact h.elim
    | field => exact ⟨h, by rintro _ _ ⟨⟩⟩

/-- Scanning a printed list gives the list back exactly if no placeholder closes early. A
pending literal must not run into one at the front. -/
theorem scan_print_iff {es : List PatternElement} (hnormal : ∀ e ∈ es, e.Normal bits)
    (hsep : Separated es) (hpending : literal ≠ [] → ∀ text rest, es ≠ .literal text :: rest) :
    scan bits elements literal none (print es) = .ok (flush elements literal ++ es) ↔
      ∀ e ∈ es, ¬ e.ClosesEarly := by
  induction es generalizing elements literal with
  | nil =>
    rw [List.append_nil]
    exact ⟨fun _ e he => (by cases he), fun _ => rfl⟩
  | cons e es ih =>
    have hrest : ∀ e ∈ es, e.Normal bits := fun e he => hnormal e (List.mem_cons_of_mem _ he)
    have hprint : print (e :: es) = e.print ++ print es := List.flatMap_cons
    rw [hprint, List.forall_mem_cons]
    cases e with
    | literal text =>
      obtain ⟨hne, hbrace⟩ := hnormal _ List.mem_cons_self
      obtain ⟨hsep, hnext⟩ := hsep.of_literal
      have hempty : literal = [] := by
        by_contra h
        exact hpending h text es rfl
      have ih : scan bits elements text none (print es) = .ok (flush elements text ++ es) ↔
          ∀ e ∈ es, ¬ e.ClosesEarly := ih hrest hsep fun _ => hnext
      rw [flush_of_ne hne, List.append_assoc] at ih
      rw [hempty, PatternElement.print, scan_literal hbrace, List.nil_append, flush_nil]
      exact ih.trans ⟨fun h => ⟨id, h⟩, fun h => h.2⟩
    | field f =>
      have hf : f.spec.Normal bits := hnormal _ List.mem_cons_self
      have ih : scan bits (flush elements literal ++ [.field f]) [] none (print es) =
          .ok (flush (flush elements literal ++ [.field f]) [] ++ es) ↔
            ∀ e ∈ es, ¬ e.ClosesEarly := ih hrest hsep.of_field fun h => absurd rfl h
      rw [flush_nil, List.append_assoc] at ih
      by_cases hclose : PatternElement.ClosesEarly (.field f)
      · refine ⟨fun h => ?_, fun h => absurd hclose h.1⟩
        obtain ⟨tail, htail⟩ :
            ∃ tail, scan bits elements literal none ((PatternElement.field f).print ++ print es) =
              scan bits (flush elements literal ++ [.field ⟨f.kind, .default⟩]) [] none tail :=
          scan_closesEarly hclose (print es)
        rw [htail] at h
        have hpre := scan_prefix h
        have hhead := (List.prefix_append_right_inj _).mp hpre
        have hspec : f.spec = .default := by
          obtain ⟨_, hr⟩ := hhead
          have := PatternElement.field.inj (List.cons.inj hr).1
          rw [← this]
        exact absurd (congrArg FormatSpec.align hspec) hclose.1
      · rw [scan_field hf hclose]
        exact ih.trans ⟨fun h => ⟨hclose, h⟩, fun h => h.2⟩

/-- The fill of a parsed spec comes from its text. -/
theorem parseFormatSpec_fill {spec : Text} {s : FormatSpec}
    (h : parseFormatSpec bits spec = .ok s) :
    s.fill = ' ' ∨ s.fill ∈ spec := by
  have hsplit : (splitAlign spec).1 = ' ' ∨ (splitAlign spec).1 ∈ spec := by
    unfold splitAlign
    split
    next f a hf _ => exact .inr (List.mem_of_head? hf)
    next => split <;> exact .inl rfl
  unfold parseFormatSpec at h
  split at h
  · obtain rfl := Except.ok.inj h
    exact .inl rfl
  · simp only at h
    split at h
    · obtain rfl := Except.ok.inj h
      exact hsplit
    · split at h
      · obtain rfl := Except.ok.inj h
        exact hsplit
      · cases h

theorem parseField_fill {token : Text} {f : ParsedField} (htoken : '}' ∉ token)
    (h : parseField bits token = .ok f) : f.spec.fill ≠ '}' := by
  unfold parseField at h
  split at h
  · cases h
  · split at h
    · cases h
    next hs =>
      obtain rfl := Except.ok.inj h
      rcases parseFormatSpec_fill hs with hfill | hfill
      · rw [hfill]
        decide
      · intro he
        rw [he] at hfill
        have hdrop := List.mem_of_mem_drop hfill
        exact htoken ((List.dropWhile_sublist _).subset hdrop)

/-- No pattern means a field that is filled with closing braces. -/
theorem scan_fill {token : Option Text} {chars : Text} {out : List PatternElement}
    (helements : ∀ f, .field f ∈ elements → f.spec.fill ≠ '}')
    (htoken : ∀ text, token = some text → '}' ∉ text)
    (h : scan bits elements literal token chars = .ok out) :
    ∀ f, .field f ∈ out → f.spec.fill ≠ '}' := by
  have hflush {elements : List PatternElement} {literal : Text}
      (h : ∀ f, .field f ∈ elements → f.spec.fill ≠ '}') :
      ∀ f, .field f ∈ flush elements literal → f.spec.fill ≠ '}' := by
    intro f hf
    unfold flush at hf
    split at hf
    · exact h f hf
    · rcases List.mem_append.mp hf with hf | hf
      · exact h f hf
      · cases List.mem_singleton.mp hf
  induction chars generalizing elements literal token with
  | nil =>
    unfold scan at h
    split at h
    · cases h
    · exact Except.ok.inj h ▸ hflush helements
  | cons c chars ih =>
    unfold scan at h
    split at h
    · split at h
      · exact ih helements (by rintro _ ⟨⟩; exact List.not_mem_nil) h
      · exact ih helements (by rintro _ ⟨⟩) h
    next text =>
      have htext := htoken text rfl
      split at h
      · split at h
        · cases h
        next f hf =>
          refine ih ?_ (by rintro _ ⟨⟩) h
          intro g hg
          rcases List.mem_append.mp hg with hg | hg
          · exact hflush helements g hg
          · obtain rfl := PatternElement.field.inj (List.mem_singleton.mp hg)
            exact parseField_fill htext hf
      next hc =>
        refine ih helements ?_ h
        rintro _ ⟨⟩ hmem
        rcases List.mem_append.mp hmem with hmem | hmem
        · exact htext hmem
        · exact hc (List.mem_singleton.mp hmem).symm

/-- A normal element list is read back from its printed pattern if and only if none of its
fields is aligned and filled with `}`, and no pattern at all is read as such a field. -/
theorem parse_print_iff {es : List PatternElement} (hnormal : ∀ e ∈ es, e.Normal bits)
    (hsep : Separated es) :
    (parsePattern bits (print es) = .ok es ↔ ∀ e ∈ es, ¬ e.ClosesEarly) ∧
      ∀ pattern out, parsePattern bits pattern = .ok out → ∀ e ∈ out, ¬ e.ClosesEarly := by
  constructor
  · exact scan_print_iff hnormal hsep fun h => absurd rfl h
  · intro pattern out h e he hclose
    cases e with
    | literal => exact hclose
    | field f =>
      exact scan_fill (by rintro f ⟨⟩) (by rintro _ ⟨⟩) h f he hclose.2

/-- A field between two literals, filled with braces on the left. -/
def braced : List PatternElement :=
  [.literal ['<'], .field ⟨.level, ⟨'{', some .right, false, 12⟩⟩, .literal [':', '}']]

theorem parse_print_iff_braced : parsePattern 64 (print braced) = .ok braced := by
  have hsep : Separated braced := trivial
  refine (parse_print_iff ?_ hsep).1.mpr ?_
  · intro e he
    simp only [braced, List.mem_cons, List.not_mem_nil, or_false] at he
    rcases he with rfl | rfl | rfl
    · exact ⟨by decide, by decide⟩
    · exact ⟨by decide, by decide⟩
    · exact ⟨by decide, by decide⟩
  · intro e he
    simp only [braced, List.mem_cons, List.not_mem_nil, or_false] at he
    rcases he with rfl | rfl | rfl
    · exact id
    · exact fun h => absurd h.2 (by decide)
    · exact id

/-- `{level:}<5}`: the level, left aligned to five characters with closing braces. -/
theorem fill_brace_not_read :
    print [.field ⟨.level, ⟨'}', some .left, false, 5⟩⟩] = "\x7blevel:\x7d<5\x7d".toList ∧
      parsePattern 64 "\x7blevel:\x7d<5\x7d".toList =
        .ok [.field ⟨.level, .default⟩, .literal "<5\x7d".toList] := by
  decide

end Insomnilog.Formatter
