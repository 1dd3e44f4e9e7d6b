import Marshal.Wire
import Marshal.Declaration.Attribute
import Marshal.Text.Blank

/-!
# Field modifiers

A field can be cast to another wire kind, and it can be left out of encoding or of equality.
`Modifiers.read` collects what the attributes of a field ask for.
-/

namespace Marshal

/-- What the attributes of a field ask for. -/
structure Modifiers where
  /-- The wire kind to write the field in. -/
  cast : Option Wire := none
  /-- Neither encode nor decode the field. -/
  offWire : Bool := false
  /-- Do not compare the field. -/
  uncompared : Bool := false
deriving DecidableEq, Repr

namespace Modifiers

/-- Nothing is asked for. -/
def isEmpty (m : Modifiers) : Bool := m == {}

/-- The field is left out of encoding or of equality. -/
def skips (m : Modifiers) : Bool := m.offWire || m.uncompared

/-- Leaves out the named capability. -/
def skip (m : Modifiers) (capability : String) : Except BuildError Modifiers :=
  if capability = "serdes" then .ok { m with offWire := true }
  else if capability = "equality" then .ok { m with uncompared := true }
  else .error (.unknownSkip capability)

/-- Leaves out the named capabilities. -/
def skipAll : Modifiers → List String → Except BuildError Modifiers
  | m, [] => .ok m
  | m, c :: cs =>
    match m.skip c with
    | .error e => .error e
    | .ok m' => m'.skipAll cs

/-- Casts to the named wire kind, which has to be a number, and only once. -/
def castTo (m : Modifiers) (name : String) : Except BuildError Modifiers :=
  if m.cast.isSome then .error .duplicateCast
  else
    match Wire.ofCastName? name with
    | none => .error (.unknownCast name)
    | some w => if w.numeric then .ok { m with cast := some w } else .error .castNotNumeric

/-- Takes up one entry of an attribute. -/
def step (m : Modifiers) (key : String) (value : AttrValue) : Except BuildError Modifiers :=
  if key = "cast" then
    match value.string? with
    | .error e => .error e
    | .ok name => m.castTo name
  else if key = "skip" then
    match value.string? with
    | .error e => .error e
    | .ok list => m.skipAll (Text.pieces list)
  else .error .unknownFieldAttribute

/-- What the attributes of a field ask for. -/
def read (attributes : List Attribute) : Except BuildError Modifiers :=
  Attribute.fold step {} attributes

end Modifiers

end Marshal
