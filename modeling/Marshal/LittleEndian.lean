/-!
# Little-endian numbers

`LittleEndian.bytes k v` writes the low `k` bytes of `v`, lowest first, and
`LittleEndian.value` reads them back.
-/

namespace Marshal

namespace LittleEndian

/-- The low `k` bytes of `v`, lowest first. -/
def bytes : Nat → Nat → List UInt8
  | 0, _ => []
  | k + 1, v => v.toUInt8 :: bytes k (v / 256)

/-- The number that a list of bytes denotes, lowest byte first. -/
def value : List UInt8 → Nat
  | [] => 0
  | b :: bs => b.toNat + 256 * value bs

end LittleEndian

end Marshal
