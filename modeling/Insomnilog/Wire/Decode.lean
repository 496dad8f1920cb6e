import Insomnilog.Lib.Outcome
import Insomnilog.Wire.Encode

/-! Decoding of a record from the bytes of one queue chunk. Slice indexing and
`usize` additions panic here where they panic in the code. -/
namespace Insomnilog.Wire
open ByteStore

inductive DecodeError where
  | bufferTooShort
  | unknownTag (tag : UInt8)
  | invalidUtf8
  | decoderFailed
  deriving DecidableEq, Repr

inductive DecodedArg where
  | i8 (v : BitVec 8)
  | i16 (v : BitVec 16)
  | i32 (v : BitVec 32)
  | i64 (v : BitVec 64)
  | i128 (v : BitVec 128)
  | u8 (v : BitVec 8)
  | u16 (v : BitVec 16)
  | u32 (v : BitVec 32)
  | u64 (v : BitVec 64)
  | u128 (v : BitVec 128)
  | f32 (v : BitVec 32)
  | f64 (v : BitVec 64)
  | bool (v : Bool)
  | str (v : String)
  | usize (v : BitVec 64)
  | isize (v : BitVec 64)
  | custom (v : String)
  deriving DecidableEq

/-- A user decoder on a payload: the text it wrote, a formatting error, or a panic. -/
abbrev Decoder := List UInt8 → Outcome Unit String

/-- The function behind each function pointer. -/
abbrev Decoders (t : Target) := t.Ptr → Decoder

abbrev Decoded := Outcome DecodeError

variable {t : Target}

/-- `a + b` in `usize`. -/
def Target.add {ε : Type*} (t : Target) (a b : ℕ) : Outcome ε ℕ :=
  if a + b < 2 ^ t.bits then .ok (a + b)
  else if t.checks then .panic
  else .ok ((a + b) % 2 ^ t.bits)

/-- `&data[from..to]`. -/
def range {ε : Type*} (data : List UInt8) (first last : ℕ) : Outcome ε (List UInt8) :=
  if first ≤ last ∧ last ≤ data.length then .ok (slice data first (last - first)) else .panic

/-- The `u32` length prefix at `off`, as `usize`. -/
def readLen (t : Target) (data : List UInt8) (off : ℕ) : ℕ :=
  (t.order.ofBytes 32 (slice data off 4)).toNat

def decodeFixed (n : ℕ) (data : List UInt8) (make : List UInt8 → DecodedArg) :
    Decoded (DecodedArg × ℕ) :=
  if data.length < n then .err .bufferTooShort else .ok (make (data.take n), 1 + n)

def decodeStr (t : Target) (data : List UInt8) : Decoded (DecodedArg × ℕ) :=
  if data.length < 4 then .err .bufferTooShort
  else do
    let len := readLen t data 0
    let last ← t.add 4 len
    if data.length < last then .err .bufferTooShort
    else do
      let bytes ← range data 4 last
      match String.fromUTF8? ⟨bytes.toArray⟩ with
      | none => .err .invalidUtf8
      | some s => do
          let consumed ← t.add (1 + 4) len
          pure (.str s, consumed)

def decodeCustom (t : Target) (dec : Decoders t) (data : List UInt8) :
    Decoded (DecodedArg × ℕ) :=
  if data.length < t.ptrBytes + 4 then .err .bufferTooShort
  else do
    let payloadLen := readLen t data t.ptrBytes
    let payloadStart := t.ptrBytes + 4
    let last ← t.add payloadStart payloadLen
    if data.length < last then .err .bufferTooShort
    else do
      let decoder := dec (t.order.ofBytes t.bits (slice data 0 t.ptrBytes))
      let payload ← range data payloadStart last
      let out ← (decoder payload).mapErr fun _ => .decoderFailed
      let consumed ← t.add (1 + t.ptrBytes + 4) payloadLen
      pure (.custom out, consumed)

/-- Decodes one argument; the second component is the number of bytes consumed. -/
def decodeOne (t : Target) (dec : Decoders t) : List UInt8 → Decoded (DecodedArg × ℕ)
  | [] => .err .bufferTooShort
  | tagByte :: rest =>
    match TypeTag.tryFrom tagByte with
    | none => .err (.unknownTag tagByte)
    | some .i8 => decodeFixed 1 rest fun b => .i8 (t.order.ofBytes 8 b)
    | some .i16 => decodeFixed 2 rest fun b => .i16 (t.order.ofBytes 16 b)
    | some .i32 => decodeFixed 4 rest fun b => .i32 (t.order.ofBytes 32 b)
    | some .i64 => decodeFixed 8 rest fun b => .i64 (t.order.ofBytes 64 b)
    | some .i128 => decodeFixed 16 rest fun b => .i128 (t.order.ofBytes 128 b)
    | some .u8 => decodeFixed 1 rest fun b => .u8 (t.order.ofBytes 8 b)
    | some .u16 => decodeFixed 2 rest fun b => .u16 (t.order.ofBytes 16 b)
    | some .u32 => decodeFixed 4 rest fun b => .u32 (t.order.ofBytes 32 b)
    | some .u64 => decodeFixed 8 rest fun b => .u64 (t.order.ofBytes 64 b)
    | some .u128 => decodeFixed 16 rest fun b => .u128 (t.order.ofBytes 128 b)
    | some .f32 => decodeFixed 4 rest fun b => .f32 (t.order.ofBytes 32 b)
    | some .f64 => decodeFixed 8 rest fun b => .f64 (t.order.ofBytes 64 b)
    | some .bool => decodeFixed 1 rest fun b => .bool (b.headD 0 != 0)
    | some .str => decodeStr t rest
    | some .usize => decodeFixed 8 rest fun b => .usize (t.order.ofBytes 64 b)
    | some .isize => decodeFixed 8 rest fun b => .isize (t.order.ofBytes 64 b)
    | some .custom => decodeCustom t dec rest

structure RecordHeader (t : Target) where
  timestampNs : BitVec 64
  metadataPtr : t.Ptr
  loggerPtr : t.Ptr
  encodedArgsSize : BitVec 32
  padding : BitVec 32
  deriving DecidableEq

namespace RecordHeader

/-- `RecordHeader::SIZE`, the size of the `repr(C)` layout. -/
def SIZE (t : Target) : ℕ := 8 + t.ptrBytes + t.ptrBytes + 4 + 4

def new (timestampNs : BitVec 64) (metadataPtr loggerPtr : t.Ptr) (encodedArgsSize : BitVec 32) :
    RecordHeader t :=
  { timestampNs, metadataPtr, loggerPtr, encodedArgsSize, padding := 0 }

/-- The header in memory, fields in declaration order. -/
def toBytes (h : RecordHeader t) : List UInt8 :=
  t.order.toBytes 8 h.timestampNs ++ t.order.toBytes t.ptrBytes h.metadataPtr ++
    t.order.toBytes t.ptrBytes h.loggerPtr ++ t.order.toBytes 4 h.encodedArgsSize ++
    t.order.toBytes 4 h.padding

def writeTo (h : RecordHeader t) (dst : ℕ) : Stores := storesAt dst h.toBytes

/-- `ptr::read_unaligned` of a header at the start of `data`. -/
def readUnaligned (t : Target) (data : List UInt8) : RecordHeader t where
  timestampNs := t.order.ofBytes 64 (slice data 0 8)
  metadataPtr := t.order.ofBytes t.bits (slice data 8 t.ptrBytes)
  loggerPtr := t.order.ofBytes t.bits (slice data (8 + t.ptrBytes) t.ptrBytes)
  encodedArgsSize := t.order.ofBytes 32 (slice data (8 + t.ptrBytes + t.ptrBytes) 4)
  padding := t.order.ofBytes 32 (slice data (8 + t.ptrBytes + t.ptrBytes + 4) 4)

end RecordHeader

/-- A decoded queue entry. `metadata` is the reference, as its address. -/
structure RawDecodedRecord (t : Target) where
  timestampNs : BitVec 64
  loggerPtr : t.Ptr
  metadata : t.Ptr
  args : List DecodedArg
  deriving DecidableEq

/-- The loop of `decode_record`. `dec j` is the user's code as it behaves when the
argument of index `j` is decoded. Every iteration consumes a byte, so a `fuel` of
`argsEnd - offset` is never used up. -/
def decodeArgs (t : Target) (dec : ℕ → Decoders t) (argsData : List UInt8) (argsEnd : ℕ) :
    ℕ → ℕ → List DecodedArg → Decoded (List DecodedArg)
  | fuel, offset, args =>
    if offset < argsEnd then
      match fuel with
      | 0 => .panic
      | fuel + 1 => do
          let chunk ← range argsData offset argsEnd
          let (arg, consumed) ← decodeOne t (dec args.length) chunk
          let offset ← t.add offset consumed
          decodeArgs t dec argsData argsEnd fuel offset (args ++ [arg])
    else .ok args

def decodeRecord (t : Target) (dec : ℕ → Decoders t) (data : List UInt8) :
    Decoded (RawDecodedRecord t) :=
  if data.length < RecordHeader.SIZE t then .err .bufferTooShort
  else
    let header := RecordHeader.readUnaligned t data
    let argsData := data.drop (RecordHeader.SIZE t)
    let argsEnd := header.encodedArgsSize.toNat
    if argsData.length < argsEnd then .err .bufferTooShort
    else do
      let args ← decodeArgs t dec argsData argsEnd argsEnd 0 []
      pure {
        timestampNs := header.timestampNs
        loggerPtr := header.loggerPtr
        metadata := header.metadataPtr
        args }

end Insomnilog.Wire
