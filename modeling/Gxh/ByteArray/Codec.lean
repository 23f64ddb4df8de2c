import Gxh.ByteArray.Basic

/-!
# Numbers and strings in a byte array

The `write*` and `read*` functions of `bytearray.cc`. A fixed-width integer goes through its
bytes in memory, with `byteswap` when `m_endian` differs from `GXH_BYTE_ORDER` (`order` here,
the byte order of the machine); the other integers are base-128 varints, zigzag-coded when
signed. A `float` or a `double` is its bit pattern and a `std::string` its bytes.
-/

namespace Gxh.ByteArray

/-! ## Integers in memory -/

/-- The bytes of a `k`-byte integer at increasing addresses. -/
def layout (order : Endian) (k n : Nat) : List UInt8 :=
  match order with
  | .little => toBytes k n
  | .big => (toBytes k n).reverse

/-- The integer at these addresses. -/
def ofLayout (order : Endian) (l : List UInt8) : Nat :=
  match order with
  | .little => ofBytes l
  | .big => ofBytes l.reverse

/-- `bswap_16`, `bswap_32` and `bswap_64`. -/
def byteswap (k n : Nat) : Nat := ofBytes (toBytes k n).reverse

/-- The body of the fixed-width writers: `k = sizeof(value)`. -/
def writeFixed (order : Endian) (k n : Nat) (s : ByteArray) : Result Unit :=
  s.write (layout order k (if s.endian ≠ order then byteswap k n else n))

/-- The body of the fixed-width readers. -/
def readFixed (order : Endian) (k : Nat) (s : ByteArray) : Result Nat :=
  (s.read k).map fun bytes =>
    let v := ofLayout order bytes
    if s.endian = order then v else byteswap k v

section Fixed

variable (order : Endian) (s : ByteArray)

-- one byte is neither swapped nor laid out
def writeFint8 (value : Int8) : Result Unit := s.write [value.toUInt8]

def writeFuint8 (value : UInt8) : Result Unit := s.write [value]

def writeFint16 (value : Int16) : Result Unit := writeFixed order 2 value.toUInt16.toNat s

def writeFuint16 (value : UInt16) : Result Unit := writeFixed order 2 value.toNat s

def writeFint32 (value : Int32) : Result Unit := writeFixed order 4 value.toUInt32.toNat s

def writeFuint32 (value : UInt32) : Result Unit := writeFixed order 4 value.toNat s

def writeFint64 (value : Int64) : Result Unit := writeFixed order 8 value.toUInt64.toNat s

def writeFuint64 (value : UInt64) : Result Unit := writeFixed order 8 value.toNat s

/-- The bit pattern of the `float` is written. -/
def writeFloat (bits : UInt32) : Result Unit := writeFuint32 order s bits

/-- The bit pattern of the `double` is written. -/
def writeDouble (bits : UInt64) : Result Unit := writeFuint64 order s bits

def readFuint8 : Result UInt8 := (s.read 1).map fun bytes => bytes.headD 0

def readFint8 : Result Int8 := (s.read 1).map fun bytes => (bytes.headD 0).toInt8

def readFint16 : Result Int16 := (readFixed order 2 s).map fun n => (UInt16.ofNat n).toInt16

def readFuint16 : Result UInt16 := (readFixed order 2 s).map UInt16.ofNat

def readFint32 : Result Int32 := (readFixed order 4 s).map fun n => (UInt32.ofNat n).toInt32

def readFuint32 : Result UInt32 := (readFixed order 4 s).map UInt32.ofNat

def readFint64 : Result Int64 := (readFixed order 8 s).map fun n => (UInt64.ofNat n).toInt64

def readFuint64 : Result UInt64 := (readFixed order 8 s).map UInt64.ofNat

def readFloat : Result UInt32 := readFuint32 order s

def readDouble : Result UInt64 := readFuint64 order s

end Fixed

/-! ## Varints -/

/-- The loop of `writeUint32` and `writeUint64`, with `room` bytes left in `tmp`. -/
def varint : Nat → Nat → List UInt8
  | 0, _ => []
  | room + 1, value =>
      if value ≥ 0x80 then UInt8.ofNat (value &&& 0x7F ||| 0x80) :: varint room (value >>> 7)
      else [UInt8.ofNat value]

/-- The loop of `readUint32` and `readUint64` at shift `i`, for words of `bits` bits. -/
def readVarint (bits : Nat) : Nat → Nat → Nat → ByteArray → Result Nat
  | 0, _, result, s => .done result s
  | count + 1, i, result, s =>
      s.readFuint8.bind fun b s' =>
        if b < 0x80 then .done (result ||| (b.toNat <<< i) % 2 ^ bits) s'
        else readVarint bits count (i + 7) (result ||| ((b &&& 0x7F).toNat <<< i) % 2 ^ bits) s'

def encodeZigzag32 (v : Int32) : UInt32 :=
  if v < 0 then (-v).toUInt32 * 2 - 1 else (v * 2).toUInt32

def encodeZigzag64 (v : Int64) : UInt64 :=
  if v < 0 then (-v).toUInt64 * 2 - 1 else (v * 2).toUInt64

def decodeZigzag32 (v : UInt32) : Int32 := ((v >>> 1) ^^^ -(v &&& 1)).toInt32

def decodeZigzag64 (v : UInt64) : Int64 := ((v >>> 1) ^^^ -(v &&& 1)).toInt64

section Varint

variable (s : ByteArray)

def writeUint32 (value : UInt32) : Result Unit := s.write (varint 5 value.toNat)

def writeUint64 (value : UInt64) : Result Unit := s.write (varint 10 value.toNat)

def writeInt32 (value : Int32) : Result Unit := s.writeUint32 (encodeZigzag32 value)

def writeInt64 (value : Int64) : Result Unit := s.writeUint64 (encodeZigzag64 value)

def readUint32 : Result UInt32 := (readVarint 32 5 0 0 s).map UInt32.ofNat

def readUint64 : Result UInt64 := (readVarint 64 10 0 0 s).map UInt64.ofNat

def readInt32 : Result Int32 := s.readUint32.map decodeZigzag32

def readInt64 : Result Int64 := s.readUint64.map decodeZigzag64

end Varint

/-! ## Strings -/

section Strings

variable (order : Endian) (s : ByteArray) (value : List UInt8)

def writeStringF16 : Result Unit :=
  (writeFuint16 order s (UInt16.ofNat value.length)).bind fun _ s => s.write value

def writeStringF32 : Result Unit :=
  (writeFuint32 order s (UInt32.ofNat value.length)).bind fun _ s => s.write value

def writeStringF64 : Result Unit :=
  (writeFuint64 order s (UInt64.ofNat value.length)).bind fun _ s => s.write value

def writeStringVint : Result Unit :=
  (s.writeUint64 (UInt64.ofNat value.length)).bind fun _ s => s.write value

def writeStringWithoutLength : Result Unit := s.write value

-- `buff.resize(len)` may run out of memory for a length that is not that of a string; the
-- byte array is then as after the out-of-range `read` here
def readStringF16 : Result (List UInt8) :=
  (readFuint16 order s).bind fun len s => s.read len.toNat

def readStringF32 : Result (List UInt8) :=
  (readFuint32 order s).bind fun len s => s.read len.toNat

def readStringF64 : Result (List UInt8) :=
  (readFuint64 order s).bind fun len s => s.read len.toNat

def readStringVint : Result (List UInt8) :=
  s.readUint64.bind fun len s => s.read len.toNat

end Strings

/-! ## All kinds -/

/-- A number with the writer it is for. -/
inductive Num
  | fint8 (v : Int8)
  | fuint8 (v : UInt8)
  | fint16 (v : Int16)
  | fuint16 (v : UInt16)
  | fint32 (v : Int32)
  | fuint32 (v : UInt32)
  | fint64 (v : Int64)
  | fuint64 (v : UInt64)
  | int32 (v : Int32)
  | uint32 (v : UInt32)
  | int64 (v : Int64)
  | uint64 (v : UInt64)
  | float (bits : UInt32)
  | double (bits : UInt64)
  deriving DecidableEq, Repr

inductive NumKind
  | fint8
  | fuint8
  | fint16
  | fuint16
  | fint32
  | fuint32
  | fint64
  | fuint64
  | int32
  | uint32
  | int64
  | uint64
  | float
  | double
  deriving DecidableEq, Repr

def Num.kind : Num → NumKind
  | .fint8 _ => .fint8
  | .fuint8 _ => .fuint8
  | .fint16 _ => .fint16
  | .fuint16 _ => .fuint16
  | .fint32 _ => .fint32
  | .fuint32 _ => .fuint32
  | .fint64 _ => .fint64
  | .fuint64 _ => .fuint64
  | .int32 _ => .int32
  | .uint32 _ => .uint32
  | .int64 _ => .int64
  | .uint64 _ => .uint64
  | .float _ => .float
  | .double _ => .double

/-- Write a number with its writer. -/
def writeNum (order : Endian) (s : ByteArray) : Num → Result Unit
  | .fint8 v => s.writeFint8 v
  | .fuint8 v => s.writeFuint8 v
  | .fint16 v => s.writeFint16 order v
  | .fuint16 v => s.writeFuint16 order v
  | .fint32 v => s.writeFint32 order v
  | .fuint32 v => s.writeFuint32 order v
  | .fint64 v => s.writeFint64 order v
  | .fuint64 v => s.writeFuint64 order v
  | .int32 v => s.writeInt32 v
  | .uint32 v => s.writeUint32 v
  | .int64 v => s.writeInt64 v
  | .uint64 v => s.writeUint64 v
  | .float v => s.writeFloat order v
  | .double v => s.writeDouble order v

/-- Read a number of a kind with the reader of that kind. -/
def readNum (order : Endian) (s : ByteArray) : NumKind → Result Num
  | .fint8 => s.readFint8.map .fint8
  | .fuint8 => s.readFuint8.map .fuint8
  | .fint16 => (s.readFint16 order).map .fint16
  | .fuint16 => (s.readFuint16 order).map .fuint16
  | .fint32 => (s.readFint32 order).map .fint32
  | .fuint32 => (s.readFuint32 order).map .fuint32
  | .fint64 => (s.readFint64 order).map .fint64
  | .fuint64 => (s.readFuint64 order).map .fuint64
  | .int32 => s.readInt32.map .int32
  | .uint32 => s.readUint32.map .uint32
  | .int64 => s.readInt64.map .int64
  | .uint64 => s.readUint64.map .uint64
  | .float => (s.readFloat order).map .float
  | .double => (s.readDouble order).map .double

/-- The length fields of strings. -/
inductive StrKind
  | F16
  | F32
  | F64
  | Vint
  deriving DecidableEq, Repr

def writeString (order : Endian) (s : ByteArray) (kind : StrKind) (value : List UInt8) :
    Result Unit :=
  match kind with
  | .F16 => s.writeStringF16 order value
  | .F32 => s.writeStringF32 order value
  | .F64 => s.writeStringF64 order value
  | .Vint => s.writeStringVint value

def readString (order : Endian) (s : ByteArray) : StrKind → Result (List UInt8)
  | .F16 => s.readStringF16 order
  | .F32 => s.readStringF32 order
  | .F64 => s.readStringF64 order
  | .Vint => s.readStringVint

end Gxh.ByteArray
