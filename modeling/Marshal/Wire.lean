import Marshal.Scalar
import Marshal.Varint
import Marshal.Zigzag
import Marshal.LittleEndian

/-!
# Wire kinds

A `Wire` is a way to write a scalar: a fixed number of bytes, a varint (signed integers through
their zigzag code), the bits of a floating point number, one byte for a boolean, or text behind its
length.  `Wire.write` and `Wire.read` are the two directions.  The tables `Wire.ofTypeName?` and
`Wire.ofCastName?` give the wire kind a declared type is written in by itself and the one that a
cast asks for.
-/

namespace Marshal

/-- The ways to write a scalar. -/
inductive Wire where
  /-- All bytes of the integer, lowest first. -/
  | fixed (t : IntType)
  /-- The integer as a varint. -/
  | var (t : IntType)
  /-- All bytes of the bit pattern, lowest first. -/
  | float (f : FloatType)
  /-- One byte. -/
  | bool
  /-- The length in bytes as a varint, then the bytes of the UTF-8 form. -/
  | text
deriving DecidableEq, Repr

/-- The bytes of the UTF-8 form of a text. -/
def textBytes (s : String) : List UInt8 := s.toUTF8.data.toList

/-- The text with the given UTF-8 form. -/
def textOfBytes (bs : List UInt8) : Except Fault String :=
  match String.fromUTF8? ⟨bs.toArray⟩ with
  | some s => .ok s
  | none => .error .notUtf8

/-- Bytes behind their length. -/
def writeBytes (bs : List UInt8) : List UInt8 := Varint.write bs.length ++ bs

/-- Reads bytes behind their length. -/
def readBytes : Reader (List UInt8) := Varint.read.andThen fun length => .take length.toNat

/-- Accepts an integer that has type `t`. -/
def accept (t : IntType) (v : Int) : Except Fault Datum :=
  if t.InRange v then .ok (.int v) else .error .outOfRange

namespace Wire

/-- The type of the values that are written. -/
def scalar : Wire → Scalar
  | fixed t | var t => .int t
  | float f => .float f
  | bool => .bool
  | text => .text

/-- The bytes of a datum.  A datum of another kind has none. -/
def write : Wire → Datum → List UInt8
  | fixed t, .int v => LittleEndian.bytes t.width.bytes (v % t.modulus).toNat
  | var t, .int v =>
    if t.signed then Varint.write (Zigzag.encode (Int64.ofInt v)).toNat else Varint.write v.toNat
  | float f, .float bits => LittleEndian.bytes f.bytes bits
  | bool, .bool b => [if b then 1 else 0]
  | text, .text s => writeBytes (textBytes s)
  | _, _ => []

/-- Reads a datum.  Only the byte `1` is the boolean `true`. -/
def read : Wire → Reader Datum
  | fixed t => (Reader.take t.width.bytes).map fun bs => .int (t.wrap (LittleEndian.value bs))
  | var t =>
    if t.signed then Varint.read.refine fun u => accept t (Zigzag.decode u).toInt
    else Varint.read.refine fun u => accept t u.toNat
  | float f => (Reader.take f.bytes).map fun bs => .float (LittleEndian.value bs)
  | bool => Reader.byte.map fun b => .bool (b == 1)
  | text => readBytes.refine fun bs => (textOfBytes bs).map .text

/-! ### Names -/

/-- The name of the kind in reports. -/
def label : Wire → String
  | fixed ⟨signed, .w8⟩ => if signed then "I8" else "U8"
  | fixed t => "Fixed" ++ (if t.signed then "I" else "U") ++ t.width.suffix
  | var ⟨signed, .machine⟩ => if signed then "Int" else "Uint"
  | var t => "Var" ++ (if t.signed then "I" else "U") ++ t.width.suffix
  | float f => if f = .single then "F32" else "F64"
  | bool => "Bool"
  | text => "Str"

/-- The name that emitted code calls the reader and the writer by. -/
def stem : Wire → String
  | fixed t => t.name
  | var ⟨signed, .machine⟩ => if signed then "int" else "uint"
  | var t => "var_" ++ t.name
  | float f => f.name
  | bool => "bool"
  | text => "string"

/-- The name of the writer in emitted code. -/
def writerName (w : Wire) : String := "write_" ++ w.stem

/-- The name of the reader in emitted code. -/
def readerName (w : Wire) : String := "read_" ++ w.stem

/-- Whether the values are numbers. -/
def numeric (w : Wire) : Bool := w.scalar.numeric

/-- Whether the writer takes its value by reference. -/
def byReference : Wire → Bool
  | text => true
  | _ => false

end Wire

/-! ### Tables -/

/-- The wire kind a scalar type is written in by itself: bytes as they are, longer integers as
varints. -/
def Scalar.wire : Scalar → Wire
  | .int ⟨signed, .w8⟩ => .fixed ⟨signed, .w8⟩
  | .int t => .var t
  | .float f => .float f
  | .bool => .bool
  | .text => .text

/-- All scalar types. -/
def Scalar.all : List Scalar :=
  IntType.all.map .int ++ [.float .single, .float .double, .bool, .text]

/-- The scalar type of a name. -/
def Scalar.ofName? (name : String) : Option Scalar :=
  Scalar.all.find? fun s => s.name == name

namespace Wire

/-- The wire kinds of fixed size that a cast can ask for by name. -/
def fixedKinds : List (String × Wire) :=
  [.w16, .w32, .w64].flatMap fun w =>
    [false, true].map fun signed => ("fixed_" ++ IntType.name ⟨signed, w⟩, fixed ⟨signed, w⟩)

/-- The wire kind of a type name. -/
def ofTypeName? (name : String) : Option Wire := (Scalar.ofName? name).map Scalar.wire

/-- The wire kind that a cast names: a type name, or a fixed size. -/
def ofCastName? (name : String) : Option Wire :=
  match ofTypeName? name with
  | some w => some w
  | none => fixedKinds.lookup name

end Wire

end Marshal
