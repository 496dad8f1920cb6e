import Mathlib.Data.List.Basic
import Mathlib.Tactic

/-! The pattern language of `PatternFormatter` and its parser. -/
namespace Insomnilog.Formatter

/-- A string, as its characters. -/
abbrev Text := List Char

inductive InvalidPatternError where
  | unknownField (name : Text)
  | unclosedBrace
  | invalidFormatSpec (spec : Text)
  deriving DecidableEq

inductive Align where
  | left
  | right
  | center
  deriving DecidableEq, Repr

structure FormatSpec where
  fill : Char
  /-- `none` for the field's default. -/
  align : Option Align
  zeroPad : Bool
  /-- Zero for no padding. -/
  width : ℕ
  deriving DecidableEq

def FormatSpec.default : FormatSpec := ⟨' ', none, false, 0⟩

inductive FieldKind where
  | level
  | secs
  | millis
  | file
  | line
  | module
  | logger
  | message
  deriving DecidableEq, Repr

structure ParsedField where
  kind : FieldKind
  spec : FormatSpec
  deriving DecidableEq

inductive PatternElement where
  | literal (text : Text)
  | field (field : ParsedField)
  deriving DecidableEq

/-- `str::parse::<usize>`: decimal digits after an optional plus sign, with a value that
fits `bits` bits. -/
def parseUsize (bits : ℕ) (s : Text) : Option ℕ :=
  let digits := match s with
    | '+' :: rest => rest
    | _ => s
  if digits ≠ [] ∧ digits.all Char.isDigit then
    let n := Nat.ofDigitChars 10 digits 0
    if n < 2 ^ bits then some n else none
  else none

def toAlign (c : Char) : Option Align :=
  match c with
  | '<' => some .left
  | '>' => some .right
  | '^' => some .center
  | _ => none

/-- The fill and alignment a spec starts with, and the characters after them. If the second
character is an alignment, the first is the fill. -/
def splitAlign (spec : Text) : Char × Option Align × Text :=
  match spec.head?, spec.tail.head?.bind toAlign with
  | some f, some a => (f, some a, spec.drop 2)
  | _, _ =>
    match spec.head?.bind toAlign with
    | some a => (' ', some a, spec.drop 1)
    | none => (' ', none, spec)

/-- The zero flag, and the characters after it. -/
def splitZero (chars : Text) : Bool × Text :=
  match chars with
  | '0' :: rest => (true, rest)
  | _ => (false, chars)

def parseFormatSpec (bits : ℕ) (spec : Text) : Except InvalidPatternError FormatSpec :=
  if spec = [] then .ok .default
  else
    let (fill, align, chars) := splitAlign spec
    let (zeroPad, rest) := splitZero chars
    if rest = [] then .ok ⟨fill, align, zeroPad, 0⟩
    else
      match parseUsize bits rest with
      | some width => .ok ⟨fill, align, zeroPad, width⟩
      | none => .error (.invalidFormatSpec spec)

namespace FieldKind

def name : FieldKind → Text
  | level => "level".toList
  | secs => "secs".toList
  | millis => "millis".toList
  | file => "file".toList
  | line => "line".toList
  | module => "module".toList
  | logger => "logger".toList
  | message => "message".toList

end FieldKind

def parseFieldKind (name : Text) : Except InvalidPatternError FieldKind :=
  if name = "level".toList then .ok .level
  else if name = "secs".toList then .ok .secs
  else if name = "millis".toList then .ok .millis
  else if name = "file".toList then .ok .file
  else if name = "line".toList then .ok .line
  else if name = "module".toList then .ok .module
  else if name = "logger".toList then .ok .logger
  else if name = "message".toList then .ok .message
  else .error (.unknownField name)

/-- Field name and spec of a token, cut at its first colon. -/
def splitColon (token : Text) : Text × Text :=
  (token.takeWhile (· != ':'), (token.dropWhile (· != ':')).drop 1)

def parseField (bits : ℕ) (token : Text) : Except InvalidPatternError ParsedField :=
  match parseFieldKind (splitColon token).1 with
  | .error e => .error e
  | .ok kind =>
    match parseFormatSpec bits (splitColon token).2 with
    | .error e => .error e
    | .ok spec => .ok ⟨kind, spec⟩

/-- Push the pending literal, unless it is empty. -/
def flush (elements : List PatternElement) (literal : Text) : List PatternElement :=
  if literal = [] then elements else elements ++ [.literal literal]

/-- The scanner of `parse_pattern`. `token` is what has been read of a placeholder, by the
inner loop of the code, which takes its characters from the same iterator. -/
def scan (bits : ℕ) (elements : List PatternElement) (literal : Text) (token : Option Text) :
    Text → Except InvalidPatternError (List PatternElement)
  | [] =>
    match token with
    | some _ => .error .unclosedBrace
    | none => .ok (flush elements literal)
  | c :: chars =>
    match token with
    | none =>
      if c = '{' then scan bits elements literal (some []) chars
      else scan bits elements (literal ++ [c]) none chars
    | some token =>
      if c = '}' then
        match parseField bits token with
        | .error e => .error e
        | .ok field => scan bits (flush elements literal ++ [.field field]) [] none chars
      else scan bits elements literal (some (token ++ [c])) chars

def parsePattern (bits : ℕ) (pattern : Text) : Except InvalidPatternError (List PatternElement) :=
  scan bits [] [] none pattern

@[simp] theorem parseFieldKind_name (kind : FieldKind) :
    parseFieldKind kind.name = .ok kind := by
  cases kind <;> decide

@[simp] theorem flush_nil (elements : List PatternElement) : flush elements [] = elements := rfl

theorem flush_of_ne {literal : Text} (h : literal ≠ []) (elements : List PatternElement) :
    flush elements literal = elements ++ [.literal literal] := if_neg h

example : parsePattern 64 "[{level:*^10}] {millis:03}".toList = .ok [
    .literal ['['], .field ⟨.level, ⟨'*', some .center, false, 10⟩⟩, .literal [']', ' '],
    .field ⟨.millis, ⟨' ', none, true, 3⟩⟩] := by decide

end Insomnilog.Formatter
