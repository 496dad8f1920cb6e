import Insomnilog.Formatter.Pattern
import Insomnilog.Frontend.LogCall

/-! Rendering of a record by a parsed pattern. -/
namespace Insomnilog.Formatter
open Frontend Wire

structure LogMetadata where
  level : LogLevel
  fmtStr : Text
  file : Text
  line : BitVec 32
  modulePath : Text

/-- A record as the formatter gets it, with its metadata dereferenced. -/
structure LogRecord where
  timestampNs : BitVec 64
  loggerName : Text
  metadata : LogMetadata
  args : List DecodedArg

/-- The texts that the standard library gives floats, by their bits. -/
structure FloatText where
  f32 : BitVec 32 → Text
  f64 : BitVec 64 → Text

def natText (n : ℕ) : Text := Nat.toDigits 10 n

def intText (i : ℤ) : Text := if i < 0 then '-' :: natText i.natAbs else natText i.natAbs

def levelText : LogLevel → Text
  | .trace => "TRACE".toList
  | .debug => "DEBUG".toList
  | .info => "INFO".toList
  | .warning => "WARNING".toList
  | .error => "ERROR".toList

/-- `Display` for `DecodedArg`. -/
def display (floats : FloatText) : DecodedArg → Text
  | .i8 v => intText v.toInt
  | .i16 v => intText v.toInt
  | .i32 v => intText v.toInt
  | .i64 v => intText v.toInt
  | .i128 v => intText v.toInt
  | .u8 v => natText v.toNat
  | .u16 v => natText v.toNat
  | .u32 v => natText v.toNat
  | .u64 v => natText v.toNat
  | .u128 v => natText v.toNat
  | .f32 v => floats.f32 v
  | .f64 v => floats.f64 v
  | .bool v => if v then "true".toList else "false".toList
  | .str v => v.toList
  | .usize v => natText v.toNat
  | .isize v => intText v.toInt
  | .custom v => v.toList

/-- The loop of `format_message`, which looks one character ahead. -/
def formatMessage (floats : FloatText) (buf : Text) : Text → List DecodedArg → Text
  | [], _ => buf
  | '{' :: '}' :: chars, arg :: args => formatMessage floats (buf ++ display floats arg) chars args
  | '{' :: '}' :: chars, [] => formatMessage floats (buf ++ ['{', '}']) chars []
  | ch :: chars, args => formatMessage floats (buf ++ [ch]) chars args

def FieldKind.isNumeric : FieldKind → Bool
  | secs => true
  | millis => true
  | line => true
  | _ => false

def renderField (floats : FloatText) (kind : FieldKind) (record : LogRecord) (secs millis : ℕ) :
    Text :=
  match kind with
  | .level => levelText record.metadata.level
  | .secs => natText secs
  | .millis => natText millis
  | .file => record.metadata.file
  | .line => natText record.metadata.line.toNat
  | .module => record.metadata.modulePath
  | .logger => record.loggerName
  | .message => formatMessage floats [] record.metadata.fmtStr record.args

def applyFormatSpec (buf value : Text) (spec : FormatSpec) (isNumeric : Bool) : Text :=
  if spec.width = 0 then buf ++ value
  else
    let valueLen := value.length
    if spec.width ≤ valueLen then buf ++ value
    else
      let padding := spec.width - valueLen
      let (fill, align) :=
        if spec.zeroPad then ('0', Align.right)
        else (spec.fill, spec.align.getD (if isNumeric then .right else .left))
      match align with
      | .left => buf ++ value ++ List.replicate padding fill
      | .right => buf ++ List.replicate padding fill ++ value
      | .center =>
          let leftPad := padding / 2
          let rightPad := padding - leftPad
          buf ++ List.replicate leftPad fill ++ value ++ List.replicate rightPad fill

/-- One round of the loop in `PatternFormatter::format`. -/
def formatElement (floats : FloatText) (record : LogRecord) (secs millis : ℕ) (out : Text) :
    PatternElement → Text
  | .literal s => out ++ s
  | .field pf =>
      applyFormatSpec out (renderField floats pf.kind record secs millis) pf.spec
        pf.kind.isNumeric

/-- `PatternFormatter::format`. -/
def format (floats : FloatText) (elements : List PatternElement) (record : LogRecord)
    (out : Text) : Text :=
  let secs := record.timestampNs.toNat / 1000000000
  let millis := record.timestampNs.toNat % 1000000000 / 1000000
  elements.foldl (formatElement floats record secs millis) out

end Insomnilog.Formatter
