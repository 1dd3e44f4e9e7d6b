import Marshal.Number.Integer

/-!
# Binary floating point numbers

A floating point number is kept as its bit pattern, so that two patterns of the same number (and
two patterns that are no number) stay apart.  `FloatType.unpack` reads a pattern as a number
`± m * 2 ^ q`, and `FloatType.pack` gives the pattern of the nearest representable number, the even
one of two that are equally near.  All of it is exact integer arithmetic.
-/

namespace Marshal

/-- The binary interchange formats. -/
inductive FloatType where
  | single
  | double
deriving DecidableEq, Repr

/-- What a bit pattern stands for. -/
inductive Unpacked where
  /-- Not a number. -/
  | nan
  /-- An infinity. -/
  | infinite (negative : Bool)
  /-- The number `± m * 2 ^ q`. -/
  | finite (negative : Bool) (m : Nat) (q : Int)
deriving DecidableEq, Repr

namespace FloatType

/-- The bits of a significand, the leading one included. -/
def precision : FloatType → Nat
  | single => 24
  | double => 53

/-- The number of bytes of a pattern. -/
def bytes : FloatType → Nat
  | single => 4
  | double => 8

/-- The name of the type. -/
def name : FloatType → String
  | single => "f32"
  | double => "f64"

/-- The place value of the sign bit. -/
def signPlace : FloatType → Nat
  | single => 0x80000000
  | double => 0x8000000000000000

/-- The place value of the lowest exponent bit. -/
def exponentPlace : FloatType → Nat
  | single => 0x800000
  | double => 0x10000000000000

/-- The exponent field of infinities and of patterns that are no number. -/
def topExponent : FloatType → Nat
  | single => 255
  | double => 2047

/-- The exponent `q` of the least positive number `2 ^ q`. -/
def minExponent : FloatType → Int
  | single => -149
  | double => -1074

/-- The pattern of positive infinity. -/
def infinity (f : FloatType) : Nat := f.topExponent * f.exponentPlace

/-- Reads a bit pattern. -/
def unpack (f : FloatType) (bits : Nat) : Unpacked :=
  let negative := decide (f.signPlace ≤ bits)
  let exponent := bits / f.exponentPlace % (f.topExponent + 1)
  let fraction := bits % f.exponentPlace
  if exponent = f.topExponent then
    if fraction = 0 then .infinite negative else .nan
  else if exponent = 0 then .finite negative fraction f.minExponent
  else .finite negative (fraction + f.exponentPlace) (f.minExponent + exponent - 1)

/-- The pattern `bits` with the given sign. -/
def withSign (f : FloatType) (negative : Bool) (bits : Nat) : Nat :=
  if negative then f.signPlace + bits else bits

/-- The quotient of `m` by `2 ^ k`, rounded to the nearest integer and at a tie to the even one. -/
def roundShift (m k : Nat) : Nat :=
  let d := m >>> k
  let r := m - d <<< k
  if 1 <<< k < 2 * r ∨ (2 * r = 1 <<< k ∧ d % 2 = 1) then d + 1 else d

/-- The pattern of the number nearest to `± m * 2 ^ q`.  The significand is rounded at the place
`2 ^ t`; a carry out of it moves on into the exponent field, where it belongs. -/
def pack (f : FloatType) (negative : Bool) (m : Nat) (q : Int) : Nat :=
  if m = 0 then f.withSign negative 0
  else
    let t := Max.max (m.log2 + q - (f.precision - 1)) f.minExponent
    let significand :=
      if q ≤ t then roundShift m (t - q).toNat else m <<< (q - t).toNat
    let bits := (t - f.minExponent).toNat * f.exponentPlace + significand
    f.withSign negative (Min.min bits f.infinity)

/-- The pattern of the number nearest to an integer. -/
def ofInt (f : FloatType) (v : Int) : Nat := f.pack (decide (v < 0)) v.natAbs 0

/-- The integer that a number has in type `t`: its fraction is dropped, and what is out of range
becomes the nearest end of the range.  A pattern that is no number gives `0`. -/
def toInt (f : FloatType) (t : IntType) (bits : Nat) : Int :=
  match f.unpack bits with
  | .nan => 0
  | .infinite negative => if negative then t.min else t.max
  | .finite negative m q =>
    let magnitude : Nat := if q < 0 then m >>> q.natAbs else m <<< q.natAbs
    t.clamp (if negative then -(magnitude : Int) else magnitude)

/-- The fraction of a pattern that is no number, brought from one format to the other with its
leading bits, and with the top bit set. -/
def quietFraction (f g : FloatType) (bits : Nat) : Nat :=
  let fraction := bits % f.exponentPlace * g.exponentPlace / f.exponentPlace
  if fraction < g.exponentPlace / 2 then fraction + g.exponentPlace / 2 else fraction

/-- The pattern of format `g` that is nearest to a pattern of format `f`. -/
def convert (f g : FloatType) (bits : Nat) : Nat :=
  if f = g then bits
  else
    match f.unpack bits with
    | .nan => g.withSign (decide (f.signPlace ≤ bits)) (g.infinity + f.quietFraction g bits)
    | .infinite negative => g.withSign negative g.infinity
    | .finite negative m q => g.pack negative m q

/-- The pattern is no number. -/
def isNaN (f : FloatType) (bits : Nat) : Bool := f.unpack bits == .nan

/-- The pattern is one of the two zeros. -/
def isZero (f : FloatType) (bits : Nat) : Bool := bits == 0 || bits == f.signPlace

/-- Two patterns are the same number: neither is outside the numbers, and they are equal or both
zero. -/
def same (f : FloatType) (a b : Nat) : Bool :=
  !f.isNaN a && !f.isNaN b && (a == b || (f.isZero a && f.isZero b))

end FloatType

end Marshal
