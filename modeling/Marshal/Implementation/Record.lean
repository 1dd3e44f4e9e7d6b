import Marshal.Implementation.Basic
import Marshal.Code.Writing
import Marshal.Code.Reading
import Marshal.Code.Comparing
import Marshal.Model.Members

/-!
# Implementations of records

A record is encoded, decoded and compared part by part, without the parts that its modifiers leave
out.
-/

namespace Marshal

open Token

/-- The place of a part of a value. -/
def Part.placeIn (p : Part) (value : String) : Place := .root (words [value, ".", p.label.text])

namespace Model

/-- The parts that are encoded and decoded. -/
def wireParts (m : Model) : List Part := m.parts.filter fun p => !p.field.modifiers.offWire

/-- The parts that are compared. -/
def comparedParts (m : Model) : List Part :=
  m.parts.filter fun p => !p.field.modifiers.uncompared

/-- The code that encodes a record. -/
def encodeCode (m : Model) : List Code :=
  m.wireParts.map fun p => p.field.encodeCode (p.placeIn "self")

/-- The code that decodes a record. -/
def decodeCode (m : Model) : List Code :=
  m.wireParts.map fun p => p.field.decodeCode (p.placeIn "self")

/-- The code that compares two records. -/
def equalityCode (m : Model) : List Code :=
  m.comparedParts.map fun p => p.field.equalityCode (p.placeIn "self") (p.placeIn "other")

open Implementation

/-- The implementations of a record without parts. -/
def emptyImplementations (m : Model) (runtime : List Token) : List Implementation :=
  [ofTrait runtime "Encode" m.name (encodeFn "_bs" []),
    ofTrait runtime "Decode" m.name (decodeFn runtime "_bs" (okTokens (words ["0"]))),
    ofTrait runtime "CodEquals" m.name (equalsFn "_other" (words ["true"]))]

/-- The implementations of a record. -/
def recordImplementations (m : Model) (runtime : List Token) : List Implementation :=
  if m.isEmpty then m.emptyImplementations runtime
  else
    [ofTrait runtime "Encode" m.name
        (allow encodeLints ++ encodeFn "bs" (m.encodeCode.flatMap (Code.tokens runtime))),
      ofTrait runtime "Decode" m.name
        (allow decodeLints ++
          decodeFn runtime "bs"
            (startOffset ++ m.decodeCode.flatMap (Code.tokens runtime) ++
              okTokens (words ["n"]))),
      ofTrait runtime "CodEquals" m.name
        (allow [lint "unused_variables", styleLint "float_cmp", styleLint "needless_range_loop"] ++
          equalsFn "other" (m.equalityCode.flatMap (Code.tokens runtime) ++ words ["true"]))]

end Model

end Marshal
