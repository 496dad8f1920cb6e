import Insomnilog.Formatter.Grammar

/-! What `parse_pattern` makes of a pattern, whether it accepts it or not. -/
namespace Insomnilog.Formatter

/-- A pattern, cut at the braces that open and close its placeholders. -/
inductive Outline where
  | ends (literal : Text)
  | unclosed (literal token : Text)
  | placeholder (literal token : Text) (rest : Outline)
  deriving DecidableEq

namespace Outline

def text : Outline → Text
  | ends literal => literal
  | unclosed literal token => literal ++ '{' :: token
  | placeholder literal token rest => literal ++ '{' :: (token ++ '}' :: rest.text)

/-- Each placeholder starts at the first brace that opens one and ends at the next that closes. -/
def Cut : Outline → Prop
  | ends literal => '{' ∉ literal
  | unclosed literal token => '{' ∉ literal ∧ '}' ∉ token
  | placeholder literal token rest => '{' ∉ literal ∧ '}' ∉ token ∧ rest.Cut

/-- What stands in the placeholders that are closed. -/
def tokens : Outline → List Text
  | placeholder _ token rest => token :: rest.tokens
  | _ => []

def isUnclosed : Outline → Bool
  | ends _ => false
  | unclosed _ _ => true
  | placeholder _ _ rest => rest.isUnclosed

/-- The literals that are not empty, and the fields. -/
def elements (bits : ℕ) : Outline → Except InvalidPatternError (List PatternElement)
  | ends literal => .ok (flush [] literal)
  | unclosed _ _ => .error .unclosedBrace
  | placeholder literal token rest =>
    match parseField bits token with
    | .error e => .error e
    | .ok field => (rest.elements bits).map fun es => flush [] literal ++ .field field :: es

end Outline

variable {bits : ℕ} {token : Text} {e : InvalidPatternError}

/-- The error that a token is reported with. A name is told to be unknown before the spec is
looked at. -/
def Blames (bits : ℕ) (token : Text) : InvalidPatternError → Prop
  | .unknownField name => name = (splitColon token).1 ∧ ∀ kind : FieldKind, kind.name ≠ name
  | .invalidFormatSpec spec => spec = (splitColon token).2 ∧
      (∃ kind : FieldKind, kind.name = (splitColon token).1) ∧
      ∀ s, parseFormatSpec bits spec ≠ .ok s
  | .unclosedBrace => False

/-- The error of the first token that has one, or else the missing brace at the end. -/
def FirstError (bits : ℕ) (o : Outline) (e : InvalidPatternError) : Prop :=
  (∃ before token after, o.tokens = before ++ token :: after ∧
    (∀ t ∈ before, ∀ e', ¬ Blames bits t e') ∧ Blames bits token e) ∨
  (o.isUnclosed = true ∧ e = .unclosedBrace ∧ ∀ t ∈ o.tokens, ∀ e', ¬ Blames bits t e')

/-- The pattern has one outline only, which tells what it is parsed as and what is wrong with it.
The elements are in normal form, and printing them gives a pattern that is parsed to the same. -/
structure Parses (bits : ℕ) (pattern : Text) (o : Outline) : Prop where
  cut : o.Cut
  text : o.text = pattern
  unique : ∀ o' : Outline, o'.Cut → o'.text = pattern → o' = o
  parsed : parsePattern bits pattern = o.elements bits
  error_iff : ∀ e, parsePattern bits pattern = .error e ↔ FirstError bits o e
  normal : ∀ es, parsePattern bits pattern = .ok es →
    (∀ element ∈ es, element.Normal bits) ∧ Separated es ∧ parsePattern bits (print es) = .ok es

theorem splitAlign_fill (spec : Text) (h : (splitAlign spec).2.1 = none) :
    (splitAlign spec).1 = ' ' := by
  unfold splitAlign at h ⊢
  split
  next f a hf ha =>
    rw [hf, ha] at h
    cases h
  next => split <;> rfl

theorem parseUsize_lt {s : Text} {n : ℕ} (h : parseUsize bits s = some n) : n < 2 ^ bits := by
  unfold parseUsize at h
  obtain ⟨-, h⟩ := Option.ite_none_right_eq_some.mp h
  obtain ⟨hlt, h⟩ := Option.ite_none_right_eq_some.mp h
  exact Option.some.inj h ▸ hlt

theorem parseFormatSpec_normal {spec : Text} {s : FormatSpec}
    (h : parseFormatSpec bits spec = .ok s) : s.Normal bits := by
  have hpos : 0 < 2 ^ bits := Nat.two_pow_pos bits
  unfold parseFormatSpec at h
  split at h
  · cases h
    exact ⟨fun _ => rfl, hpos⟩
  · dsimp only at h
    split at h
    · cases h
      exact ⟨splitAlign_fill spec, hpos⟩
    · split at h
      next width hwidth =>
        cases h
        exact ⟨splitAlign_fill spec, parseUsize_lt hwidth⟩
      next => cases h

theorem parseFieldKind_cases (name : Text) :
    (∃ kind : FieldKind, kind.name = name ∧ parseFieldKind name = .ok kind) ∨
      (∀ kind : FieldKind, kind.name ≠ name) ∧
        parseFieldKind name = .error (.unknownField name) := by
  by_cases h : ∃ kind : FieldKind, kind.name = name
  · obtain ⟨kind, rfl⟩ := h
    exact .inl ⟨kind, rfl, parseFieldKind_name kind⟩
  · have hne (kind : FieldKind) : kind.name ≠ name := fun hk => h ⟨kind, hk⟩
    refine .inr ⟨hne, ?_⟩
    unfold parseFieldKind
    split_ifs with hlevel hsecs hmillis hfile hline hmodule hlogger hmessage
    · exact absurd hlevel.symm (hne .level)
    · exact absurd hsecs.symm (hne .secs)
    · exact absurd hmillis.symm (hne .millis)
    · exact absurd hfile.symm (hne .file)
    · exact absurd hline.symm (hne .line)
    · exact absurd hmodule.symm (hne .module)
    · exact absurd hlogger.symm (hne .logger)
    · exact absurd hmessage.symm (hne .message)
    · rfl

theorem parseField_error_iff : parseField bits token = .error e ↔ Blames bits token e := by
  unfold parseField
  rcases parseFieldKind_cases (splitColon token).1 with ⟨kind, hkind, hparsed⟩ | ⟨hne, hparsed⟩
  · rw [hparsed]
    dsimp only
    cases hspec : parseFormatSpec bits (splitColon token).2 with
    | error e' =>
      obtain rfl := parseFormatSpec_error hspec
      dsimp only
      constructor
      · intro h
        cases h
        refine ⟨rfl, ⟨kind, hkind⟩, fun s hs => ?_⟩
        cases hspec.symm.trans hs
      · intro h
        cases e with
        | unknownField name => exact absurd (hkind.trans h.1.symm) (h.2 kind)
        | unclosedBrace => exact h.elim
        | invalidFormatSpec spec => rw [h.1]
    | ok s =>
      dsimp only
      refine ⟨nofun, fun h => ?_⟩
      cases e with
      | unknownField name => exact absurd (hkind.trans h.1.symm) (h.2 kind)
      | unclosedBrace => exact h.elim
      | invalidFormatSpec spec =>
        obtain ⟨rfl, -, hnone⟩ := h
        exact absurd hspec (hnone s)
  · rw [hparsed]
    dsimp only
    constructor
    · intro h
      cases h
      exact ⟨rfl, hne⟩
    · intro h
      cases e with
      | unknownField name => rw [h.1]
      | unclosedBrace => exact h.elim
      | invalidFormatSpec spec =>
        obtain ⟨-, ⟨kind, hkind⟩, -⟩ := h
        exact absurd hkind (hne kind)

theorem flush_eq (elements : List PatternElement) (literal : Text) :
    flush elements literal = elements ++ flush [] literal := by
  unfold flush
  split
  · rw [List.append_nil]
  · rfl

theorem scan_unclosed {elements : List PatternElement} {literal : Text} (pre : Text)
    (h : '}' ∉ token) :
    scan bits elements literal (some pre) token = .error .unclosedBrace := by
  induction token generalizing pre with
  | nil => rfl
  | cons c token ih =>
    rw [List.mem_cons, not_or] at h
    obtain ⟨hc, htoken⟩ := h
    rw [scan, if_neg (Ne.symm hc)]
    exact ih _ htoken

namespace Outline

/-- What the parser has in hand stays in front. -/
theorem scan_text {o : Outline} (h : o.Cut) (elements : List PatternElement) :
    scan bits elements [] none o.text = (o.elements bits).map (elements ++ ·) := by
  induction o generalizing elements with
  | ends literal =>
    have hscan : scan bits elements [] none literal = scan bits elements literal none [] := by
      rw [← List.append_nil literal, scan_literal h, List.nil_append, List.append_nil]
    rw [Outline.text, hscan]
    exact congrArg Except.ok (flush_eq elements literal)
  | unclosed literal token =>
    obtain ⟨hliteral, htoken⟩ := h
    rw [Outline.text, scan_literal hliteral, List.nil_append, scan]
    exact scan_unclosed [] htoken
  | placeholder literal token rest ih =>
    obtain ⟨hliteral, htoken, hrest⟩ := h
    rw [Outline.text, scan_literal hliteral, List.nil_append, scan, if_pos rfl, scan_token htoken,
      List.nil_append, Outline.elements]
    cases parseField bits token with
    | error e => rfl
    | ok field =>
      dsimp only
      rw [ih hrest, flush_eq]
      cases rest.elements bits with
      | error e => rfl
      | ok es =>
        refine congrArg Except.ok ?_
        simp only [List.append_assoc, List.singleton_append]

theorem exists_cut (pattern : Text) : ∃ o : Outline, o.Cut ∧ o.text = pattern := by
  induction hn : pattern.length using Nat.strong_induction_on generalizing pattern with
  | _ n ih =>
    by_cases hopen : '{' ∈ pattern
    · obtain ⟨literal, rest, rfl, hliteral⟩ := List.eq_append_cons_of_mem hopen
      by_cases hclose : '}' ∈ rest
      · obtain ⟨token, rest, rfl, htoken⟩ := List.eq_append_cons_of_mem hclose
        obtain ⟨o, hcut, rfl⟩ := ih rest.length (by simp at hn; omega) rest rfl
        exact ⟨.placeholder literal token o, ⟨hliteral, htoken, hcut⟩, rfl⟩
      · exact ⟨.unclosed literal rest, ⟨hliteral, hclose⟩, rfl⟩
    · exact ⟨.ends pattern, hopen, rfl⟩

/-- Up to the first mark both cuts are the same. -/
theorem split_unique {mark : Char} {l l' rest rest' : Text} (h : mark ∉ l) (h' : mark ∉ l')
    (heq : l ++ mark :: rest = l' ++ mark :: rest') : l = l' ∧ rest = rest' := by
  rcases List.append_eq_append_iff.mp heq with ⟨as, rfl, has⟩ | ⟨as, rfl, has⟩
  · cases as with
    | nil => exact ⟨(List.append_nil l).symm, (List.cons.inj has).2⟩
    | cons c as =>
      obtain ⟨rfl, -⟩ := List.cons.inj has
      exact absurd (List.mem_append_right _ List.mem_cons_self) h'
  · cases as with
    | nil => exact ⟨List.append_nil l', (List.cons.inj has).2.symm⟩
    | cons c as =>
      obtain ⟨rfl, -⟩ := List.cons.inj has
      exact absurd (List.mem_append_right _ List.mem_cons_self) h

theorem eq_ends {o : Outline} (h : '{' ∉ o.text) : o = .ends o.text := by
  cases o with
  | ends literal => rfl
  | unclosed literal token =>
    exact absurd (List.mem_append_right _ List.mem_cons_self) h
  | placeholder literal token rest =>
    exact absurd (List.mem_append_right _ List.mem_cons_self) h

theorem cut_unique {o o' : Outline} (h : o.Cut) (h' : o'.Cut) (heq : o'.text = o.text) :
    o' = o := by
  induction o generalizing o' with
  | ends literal =>
    have hends := eq_ends (o := o') (by rw [heq]; exact h)
    rw [hends, heq]
    rfl
  | unclosed literal token =>
    obtain ⟨hliteral, htoken⟩ := h
    cases o' with
    | ends literal' =>
      have hends := eq_ends (o := .unclosed literal token) (by rw [← heq]; exact h')
      rw [hends, ← heq]
      rfl
    | unclosed literal' token' =>
      obtain ⟨rfl, rfl⟩ := split_unique h'.1 hliteral heq
      rfl
    | placeholder literal' token' rest' =>
      obtain ⟨-, rfl⟩ := split_unique h'.1 hliteral heq
      exact absurd (List.mem_append_right _ List.mem_cons_self) htoken
  | placeholder literal token rest ih =>
    obtain ⟨hliteral, htoken, hrest⟩ := h
    cases o' with
    | ends literal' =>
      have hends := eq_ends (o := .placeholder literal token rest) (by rw [← heq]; exact h')
      rw [hends, ← heq]
      rfl
    | unclosed literal' token' =>
      obtain ⟨-, rfl⟩ := split_unique h'.1 hliteral heq
      exact absurd (List.mem_append_right _ List.mem_cons_self) h'.2
    | placeholder literal' token' rest' =>
      obtain ⟨hliteral', htoken', hrest'⟩ := h'
      obtain ⟨rfl, heq'⟩ := split_unique hliteral' hliteral heq
      obtain ⟨rfl, heq''⟩ := split_unique htoken' htoken heq'
      rw [ih hrest hrest' heq'']

theorem elements_error_iff (o : Outline) : o.elements bits = .error e ↔ FirstError bits o e := by
  induction o with
  | ends literal =>
    refine ⟨nofun, ?_⟩
    rintro (⟨before, token, after, hsplit, -⟩ | ⟨hopen, -⟩)
    · cases before <;> cases hsplit
    · cases hopen
  | unclosed literal token =>
    constructor
    · intro h
      cases h
      exact .inr ⟨rfl, rfl, nofun⟩
    · rintro (⟨before, token, after, hsplit, -⟩ | ⟨-, rfl, -⟩)
      · cases before <;> cases hsplit
      · rfl
  | placeholder literal token rest ih =>
    rw [Outline.elements]
    cases hfield : parseField bits token with
    | error e' =>
      have hblames := parseField_error_iff.mp hfield
      dsimp only
      constructor
      · intro h
        cases h
        exact .inl ⟨[], token, rest.tokens, rfl, nofun, hblames⟩
      · rintro (⟨before, token', after, hsplit, hbefore, htoken⟩ | ⟨-, -, hall⟩)
        · cases before with
          | nil =>
            obtain ⟨rfl, -⟩ := List.cons.inj hsplit
            cases hfield.symm.trans (parseField_error_iff.mpr htoken)
            rfl
          | cons t before =>
            obtain ⟨rfl, -⟩ := List.cons.inj hsplit
            exact absurd hblames (hbefore _ List.mem_cons_self e')
        · exact absurd hblames (hall token List.mem_cons_self e')
    | ok field =>
      have hfine (e' : InvalidPatternError) : ¬ Blames bits token e' := by
        intro h
        cases hfield.symm.trans (parseField_error_iff.mpr h)
      have hmap : ((rest.elements bits).map fun es => flush [] literal ++ .field field :: es) =
          .error e ↔ rest.elements bits = .error e := by
        cases rest.elements bits <;> simp [Except.map]
      dsimp only
      rw [hmap, ih]
      constructor
      · rintro (⟨before, token', after, hsplit, hbefore, htoken⟩ | ⟨hopen, rfl, hall⟩)
        · refine .inl ⟨token :: before, token', after, congrArg _ hsplit, ?_, htoken⟩
          exact List.forall_mem_cons.mpr ⟨hfine, hbefore⟩
        · exact .inr ⟨hopen, rfl, List.forall_mem_cons.mpr ⟨hfine, hall⟩⟩
      · rintro (⟨before, token', after, hsplit, hbefore, htoken⟩ | ⟨hopen, rfl, hall⟩)
        · cases before with
          | nil =>
            obtain ⟨rfl, -⟩ := List.cons.inj hsplit
            exact absurd htoken (hfine e)
          | cons t before =>
            obtain ⟨-, hsplit⟩ := List.cons.inj hsplit
            exact .inl ⟨before, token', after, hsplit, (List.forall_mem_cons.mp hbefore).2, htoken⟩
        · exact .inr ⟨hopen, rfl, (List.forall_mem_cons.mp hall).2⟩

theorem flush_normal {literal : Text} (h : '{' ∉ literal) :
    ∀ element ∈ flush [] literal, element.Normal bits := by
  unfold flush
  split
  · exact nofun
  next hne =>
    intro element helement
    rw [List.mem_singleton.mp helement]
    exact ⟨hne, h⟩

theorem parseField_normal {field : ParsedField} (h : parseField bits token = .ok field) :
    PatternElement.Normal bits (.field field) := by
  unfold parseField at h
  split at h
  · cases h
  · split at h
    · cases h
    next hspec =>
      cases h
      exact parseFormatSpec_normal hspec

theorem elements_normal {o : Outline} (h : o.Cut) {es : List PatternElement}
    (hes : o.elements bits = .ok es) : (∀ element ∈ es, element.Normal bits) ∧ Separated es := by
  induction o generalizing es with
  | ends literal =>
    cases hes
    refine ⟨flush_normal h, ?_⟩
    unfold flush
    split <;> trivial
  | unclosed literal token => cases hes
  | placeholder literal token rest ih =>
    obtain ⟨hliteral, -, hrest⟩ := h
    rw [Outline.elements] at hes
    cases hfield : parseField bits token with
    | error e =>
      rw [hfield] at hes
      cases hes
    | ok field =>
      rw [hfield] at hes
      cases htail : rest.elements bits with
      | error e =>
        rw [htail] at hes
        cases hes
      | ok tail =>
        rw [htail] at hes
        cases hes
        obtain ⟨hnormal, hseparated⟩ := ih hrest htail
        constructor
        · refine List.forall_mem_append.mpr ⟨flush_normal hliteral, ?_⟩
          exact List.forall_mem_cons.mpr ⟨parseField_normal hfield, hnormal⟩
        · unfold flush
          split <;> exact hseparated

end Outline

/-- For every pattern. -/
theorem pattern_parses (bits : ℕ) (pattern : Text) : ∃ o, Parses bits pattern o := by
  obtain ⟨o, hcut, rfl⟩ := Outline.exists_cut pattern
  have hparsed : parsePattern bits o.text = o.elements bits := by
    rw [parsePattern, Outline.scan_text hcut]
    cases o.elements bits <;> rfl
  refine ⟨o, hcut, rfl, fun o' h' heq => Outline.cut_unique hcut h' heq, hparsed, fun e => ?_,
    fun es hes => ?_⟩
  · rw [hparsed]
    exact o.elements_error_iff
  · obtain ⟨hnormal, hseparated⟩ := Outline.elements_normal hcut (hparsed.symm.trans hes)
    refine ⟨hnormal, hseparated, ?_⟩
    have hclosed : ∀ element ∈ es, ¬ element.ClosesEarly := by
      intro element helement hclose
      cases element with
      | literal => exact hclose
      | field f => exact scan_fill (by rintro f ⟨⟩) (by rintro _ ⟨⟩) hes f helement hclose.2
    exact (scan_print_iff hnormal hseparated fun h => absurd rfl h).mpr hclosed

end Insomnilog.Formatter
