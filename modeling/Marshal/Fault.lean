/-!
# Faults

A decoder that refuses its input says why with a `Fault`.  `Fault.message` is the text shown to a
user, and `Fault.compare` orders faults by kind first and by the offending tag second.
-/

namespace Marshal

/-- Why a decoder refuses its input. -/
inductive Fault where
  /-- The input ends inside a value, or a varint does not fit 64 bits. -/
  | truncated
  /-- No member of the union carries this tag. -/
  | unknownTag (tag : UInt8)
  /-- The bytes of a text are not valid UTF-8. -/
  | notUtf8
  /-- A varint is well formed but outside the range of the integer it is read for. -/
  | outOfRange
deriving DecidableEq, Repr

namespace Fault

/-- The text shown to a user. -/
def message : Fault → String
  | truncated => "cod: unmarshal encountered truncated data"
  | unknownTag tag => "cod: unknown union type tag " ++ toString tag.toNat
  | notUtf8 => "cod: string data is not valid UTF-8"
  | outOfRange => "cod: varint overflows the target integer width"

/-- The position of a fault's kind in the order of faults. -/
def rank : Fault → Nat
  | truncated => 0
  | unknownTag _ => 1
  | notUtf8 => 2
  | outOfRange => 3

/-- Faults are ordered by kind, and unknown tags by the tag. -/
def compare : Fault → Fault → Ordering
  | unknownTag s, unknownTag t => Ord.compare s.toNat t.toNat
  | a, b => Ord.compare a.rank b.rank

end Fault

end Marshal
