/-!
# Integer types

An integer type is a width and a signedness.  Its values are the integers of a range
(`IntType.InRange`), and `IntType.wrap` brings any integer into the range by dropping its high
bits, which is how an integer changes its type.  Machine words have 64 bits.
-/

namespace Marshal

/-- The widths of integer types. -/
inductive Width where
  | w8
  | w16
  | w32
  | w64
  | machine
deriving DecidableEq, Repr

/-- The number of bits of a width. -/
def Width.bits : Width → Nat
  | w8 => 8
  | w16 => 16
  | w32 => 32
  | w64 => 64
  | machine => 64

/-- The number of values of a width. -/
def Width.modulus : Width → Nat
  | w8 => 0x100
  | w16 => 0x10000
  | w32 => 0x100000000
  | w64 => 0x10000000000000000
  | machine => 0x10000000000000000

/-- The number of bytes of a width. -/
def Width.bytes : Width → Nat
  | w8 => 1
  | w16 => 2
  | w32 => 4
  | w64 => 8
  | machine => 8

/-- The digits that name a width. -/
def Width.suffix : Width → String
  | w8 => "8"
  | w16 => "16"
  | w32 => "32"
  | w64 => "64"
  | machine => "size"

/-- An integer type. -/
structure IntType where
  /-- Whether there are negative values. -/
  signed : Bool
  /-- How many bits a value has. -/
  width : Width
deriving DecidableEq, Repr

namespace IntType

/-- The unsigned byte. -/
abbrev byte : IntType := ⟨false, .w8⟩

/-- The number of values of the type. -/
def modulus (t : IntType) : Nat := t.width.modulus

/-- The least value. -/
def min (t : IntType) : Int := if t.signed then -((t.modulus / 2 : Nat) : Int) else 0

/-- The greatest value. -/
def max (t : IntType) : Int :=
  if t.signed then ((t.modulus / 2 : Nat) : Int) - 1 else (t.modulus : Int) - 1

/-- The integer `v` is a value of type `t`. -/
def InRange (t : IntType) (v : Int) : Prop := t.min ≤ v ∧ v ≤ t.max

instance (t : IntType) (v : Int) : Decidable (t.InRange v) :=
  inferInstanceAs (Decidable (_ ∧ _))

/-- The value of type `t` that agrees with `v` on the low bits. -/
def wrap (t : IntType) (v : Int) : Int :=
  if t.signed then v.bmod t.modulus else v % t.modulus

/-- The value of type `t` nearest to `v`. -/
def clamp (t : IntType) (v : Int) : Int :=
  if v < t.min then t.min else if t.max < v then t.max else v

/-- The name of the type: `u8`, `i32`, `usize` and so on. -/
def name (t : IntType) : String := (if t.signed then "i" else "u") ++ t.width.suffix

/-- All integer types. -/
def all : List IntType :=
  [.w8, .w16, .w32, .w64, .machine].flatMap fun w => [⟨false, w⟩, ⟨true, w⟩]

end IntType

end Marshal
