import Marshal.Number.Binary

/-!
# Scalars

A `Scalar` is a type without parts: an integer type, a floating point type, booleans or text.  A
`Datum` is a value of such a type; integers are kept as integers and floating point numbers as bit
patterns.  `Scalar.convert` changes the type of a number, and `Scalar.same` compares two data the
way the type compares them.
-/

namespace Marshal

/-- The types without parts. -/
inductive Scalar where
  | int (t : IntType)
  | float (f : FloatType)
  | bool
  | text
deriving DecidableEq, Repr

/-- The values of scalar types. -/
inductive Datum where
  | int (v : Int)
  | float (bits : Nat)
  | bool (b : Bool)
  | text (s : String)
deriving DecidableEq, Repr

namespace Scalar

/-- The unsigned byte. -/
abbrev byte : Scalar := .int .byte

/-- The name of the type in a declaration. -/
def name : Scalar → String
  | int t => t.name
  | float f => f.name
  | bool => "bool"
  | text => "String"

/-- Whether the values are numbers. -/
def numeric : Scalar → Bool
  | int _ | float _ => true
  | bool | text => false

/-- The datum `d` is a value of type `s`. -/
def Has : Scalar → Datum → Prop
  | int t, .int v => t.InRange v
  | float f, .float bits => bits < 2 * f.signPlace
  | bool, .bool _ => True
  | text, .text s => s.utf8ByteSize < Width.w64.modulus
  | _, _ => False

/-- The value a variable of the type starts with. -/
def blank : Scalar → Datum
  | int _ => .int 0
  | float _ => .float 0
  | bool => .bool false
  | text => .text ""

/-- The number `d` of type `s` as a number of type `t`.  Between integer types the high bits are
dropped; towards an integer type the fraction is dropped and the range is not left; towards a
floating point type the nearest number is taken.  Data that are no numbers stay as they are. -/
def convert (s t : Scalar) (d : Datum) : Datum :=
  match s, t, d with
  | int _, int u, .int v => .int (u.wrap v)
  | int _, float g, .int v => .float (g.ofInt v)
  | float f, int u, .float bits => .int (f.toInt u bits)
  | float f, float g, .float bits => .float (f.convert g bits)
  | _, _, d => d

/-- Two data of type `s` count as equal.  Floating point numbers compare as numbers. -/
def same : Scalar → Datum → Datum → Bool
  | float f, .float a, .float b => f.same a b
  | _, a, b => a == b

end Scalar

end Marshal
