import Marshal.TypeExpr
import Marshal.Modifiers

/-!
# Field trees

A `Field` describes a part of a declared type: leaves, which are scalars or types with their own
code, and containers of other fields.  Every node has a name to be reported under and the modifiers
of the declaration it belongs to.  Containers also have their nesting depth, which numbers the local
names in the code emitted for them.
-/

namespace Marshal

/-- What every node of a field tree has. -/
structure NodeInfo where
  name : String := ""
  modifiers : Modifiers := {}
deriving DecidableEq, Repr

/-- A part of a declared type. -/
inductive Field where
  /-- A scalar with its wire kind, or a type that has its own code. -/
  | leaf (info : NodeInfo) (type : TypeExpr) (wire : Option Wire)
  | array (info : NodeInfo) (type : TypeExpr) (depth : Nat) (inner : Field)
  | sequence (info : NodeInfo) (type : TypeExpr) (depth : Nat) (inner : Field)
  | map (info : NodeInfo) (type : TypeExpr) (depth : Nat) (key value : Field)
  | optional (info : NodeInfo) (type : TypeExpr) (depth : Nat) (inner : Field)
  /-- The only part of a type that is another name for it. -/
  | synonym (info : NodeInfo) (ident : String) (depth : Nat) (inner : Field)
  /-- A member of a union, under its tag. -/
  | member (info : NodeInfo) (tag : Nat) (depth : Nat) (inner : Field)

namespace Field

/-- What the node has in common with all others. -/
def info : Field → NodeInfo
  | leaf info .. | array info .. | sequence info .. | map info .. | optional info ..
  | synonym info .. | member info .. => info

/-- The name the node is reported under. -/
def name (f : Field) : String := f.info.name

/-- The modifiers of the node. -/
def modifiers (f : Field) : Modifiers := f.info.modifiers

/-- The declared type of the node. -/
def type : Field → TypeExpr
  | leaf _ t _ | array _ t _ _ | sequence _ t _ _ | map _ t _ _ _ | optional _ t _ _ => t
  | synonym _ ident _ _ => .named ident
  | member _ _ _ inner => inner.type

/-- The text of the declared type. -/
def typeText (f : Field) : String := f.type.text

/-- What kind of node it is, for reports. -/
def kind : Field → String
  | leaf _ _ wire => if wire.isSome then "primitive" else "delegate"
  | array .. => "array"
  | sequence .. => "slice"
  | map .. => "map"
  | optional .. => "pointer"
  | synonym .. => "alias"
  | member .. => "union member"

/-- Names the node and, after it, the nodes below. -/
def withName (name : String) : Field → Field
  | leaf info t w => leaf { info with name } t w
  | array info t d inner =>
    array { info with name } t d (inner.withName (name ++ "[i" ++ toString d ++ "]"))
  | sequence info t d inner =>
    sequence { info with name } t d (inner.withName (name ++ "[i" ++ toString d ++ "]"))
  | map info t d key value =>
    map { info with name } t d (key.withName (name ++ ".key" ++ toString d))
      (value.withName (name ++ "[key" ++ toString d ++ "]"))
  | optional info t d inner => optional { info with name } t d (inner.withName ("*" ++ name))
  | synonym info i d inner => synonym { info with name } i d (inner.withName (name ++ ".0"))
  | member info tag d inner => member { info with name } tag d (inner.withName name)

/-- Gives the node and all nodes below the same modifiers. -/
def withModifiers (modifiers : Modifiers) : Field → Field
  | leaf info t w => leaf { info with modifiers } t w
  | array info t d inner => array { info with modifiers } t d (inner.withModifiers modifiers)
  | sequence info t d inner => sequence { info with modifiers } t d (inner.withModifiers modifiers)
  | map info t d key value =>
    map { info with modifiers } t d (key.withModifiers modifiers) (value.withModifiers modifiers)
  | optional info t d inner => optional { info with modifiers } t d (inner.withModifiers modifiers)
  | synonym info i d inner => synonym { info with modifiers } i d (inner.withModifiers modifiers)
  | member info tag d inner => member { info with modifiers } tag d (inner.withModifiers modifiers)

/-- The wire kind a leaf is written in, if it does not have its own code. -/
def encodedWire (modifiers : Modifiers) (wire : Option Wire) : Option Wire :=
  modifiers.cast.or wire

/-- The node is a byte that is written as it is. -/
def isRawByte : Field → Bool
  | leaf info _ wire => wire == some (.fixed .byte) && info.modifiers.cast == none
  | _ => false

/-- Every value has at least one byte, as far as the tree tells. -/
def takesBytes : Field → Bool
  | leaf info _ wire => (encodedWire info.modifiers wire).isSome
  | sequence .. | map .. | optional .. => true
  | array .. => false
  | synonym _ _ _ inner | member _ _ _ inner => inner.takesBytes

end Field

end Marshal
