import Marshal.Reader

/-!
# Varints

A number is written in base 128, lowest digit first, and every byte but the last has its high bit
set.  `Varint.write` is defined on all natural numbers.  `Varint.read` collects at most 64 bits in
a machine word: it refuses a tenth byte above `1` and any eleventh byte.
-/

namespace Marshal

namespace Varint

/-- The base-128 digits of `v`, lowest first, with the high bit set on all but the last. -/
def write (v : Nat) : List UInt8 :=
  if v < 128 then [v.toUInt8] else (v % 128 + 128).toUInt8 :: write (v / 128)
termination_by v
decreasing_by omega

/-- The most bytes a varint of 64 bits takes. -/
def maxLength : Nat := 10

/-- Reads on at byte number `i`, where `word` holds the bits of the bytes before it. -/
def readFrom (i : Nat) (word : UInt64) : Reader UInt64
  | [] => .error .truncated
  | b :: bs =>
    if i = maxLength then .error .truncated
    else if b < 0x80 then
      if i = maxLength - 1 ∧ 1 < b then .error .truncated
      else .ok (word ||| (b.toUInt64 <<< (7 * i).toUInt64), i + 1)
    else readFrom (i + 1) (word ||| ((b &&& 0x7f).toUInt64 <<< (7 * i).toUInt64)) bs

/-- Reads an unsigned number of 64 bits. -/
def read : Reader UInt64 := readFrom 0 0

end Varint

end Marshal
