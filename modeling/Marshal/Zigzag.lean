/-!
# Zigzag numbering of signed words

The signed words `0, -1, 1, -2, 2, …` are numbered `0, 1, 2, 3, 4, …`, so that a number of small
magnitude gets a small code.  Both directions are computed on the bits of a 64-bit word.
-/

namespace Marshal

namespace Zigzag

/-- The code of a signed word: its bits moved up by one, and flipped if it is negative. -/
def encode (v : Int64) : UInt64 := ((v <<< 1) ^^^ (v >>> 63)).toUInt64

/-- The signed word of a code: its bits moved down by one, and flipped if the code is odd. -/
def decode (u : UInt64) : Int64 := (u >>> 1).toInt64 ^^^ (-(u &&& 1).toInt64)

end Zigzag

end Marshal
