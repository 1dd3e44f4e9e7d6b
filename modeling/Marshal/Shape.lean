import Marshal.Wire
import Marshal.KeyOrder

/-!
# Shapes and schemas

A `Shape` says how a value is laid out: scalars (perhaps written as another type), optional values,
arrays, sequences, maps, and references to named declarations.  A `Decl` declares a record or a
union holder, and a `Schema` is a list of named declarations, which may refer to each other and to
themselves.

The code for a field is *expanded* for the shape of the field as far as the shape is spelled out,
and `Shape.delegate` marks where it ends: from there on the *generic* code of the type takes over.
The two kinds of code write the same bytes, but they differ in how they read (`Style`).
-/

namespace Marshal

/-- Whether the code of a shape was expanded for it or is the generic code of its parts. -/
inductive Style where
  /-- Sequences and maps refuse a length that the input cannot hold, and bytes are read at once. -/
  | expanded
  /-- Sequences and maps are filled up item by item. -/
  | generic
deriving DecidableEq, Repr

/-- A type with its own equality whose values go over the wire through conversions. -/
structure Conversion where
  /-- The type of the stored value. -/
  carrier : Scalar
  /-- What is written for a value. -/
  toWire : Datum → Datum
  /-- The value for what was read. -/
  ofWire : Datum → Datum
  /-- When two values count as equal. -/
  same : Datum → Datum → Bool

/-- How a value is laid out. -/
inductive Shape where
  /-- A scalar, written as its type is or, with a cast, in another wire kind. -/
  | scalar (s : Scalar) (cast : Option Wire)
  /-- A value that is converted on its way. -/
  | converted (c : Conversion) (w : Wire)
  /-- A value whose own type has the code for it. -/
  | delegate (s : Shape)
  /-- A value of a declared type. -/
  | ref (name : String)
  /-- A value that is decoded apart and stored when it is complete. -/
  | staged (s : Shape)
  /-- An optional value. -/
  | option (s : Shape)
  /-- A fixed number of values. -/
  | array (size : Nat) (s : Shape)
  /-- Any number of values. -/
  | seq (s : Shape)
  /-- Keys with values. -/
  | map (keys : Keys) (key value : Shape)

namespace Shape

/-- Every value has at least one byte, as far as the shape is spelled out: a delegate may have
none. -/
def takesBytes : Shape → Bool
  | scalar _ _ | converted _ _ => true
  | delegate _ | ref _ => false
  | staged s => s.takesBytes
  | option _ => true
  | array _ _ => false
  | seq _ | map _ _ _ => true

/-- The shape is that of a byte which is written as it is. -/
def isRawByte : Shape → Bool
  | scalar s cast => s == .byte && cast == none
  | _ => false

theorem isRawByte_iff {s : Shape} : s.isRawByte = true ↔ s = scalar .byte none := by
  cases s <;> simp [isRawByte]

end Shape

/-- How a part of a record is called. -/
inductive Label where
  | name (ident : String)
  | index (i : Nat)
deriving DecidableEq, Repr

/-- A part of a record. -/
structure Slot where
  label : Label
  shape : Shape
  /-- The slot is neither written nor read. -/
  offWire : Bool := false
  /-- The slot is not compared. -/
  uncompared : Bool := false

/-- A member of a union. -/
structure Member where
  name : String
  shape : Shape

/-- The members of a union in the order of their tags, which start at `1`. -/
abbrev Members := List Member

/-- The member that carries a tag. -/
def Members.member? (u : Members) (tag : Nat) : Option Member :=
  match tag with
  | 0 => none
  | i + 1 => u[i]?

/-- The number of tags, the tag `0` of an empty holder included. -/
def Members.size (u : Members) : Nat := u.length + 1

/-- A declared type. -/
inductive Decl where
  /-- A record of slots. -/
  | record (slots : List Slot)
  /-- A holder of at most one member of a union. -/
  | holder (u : Members)

/-- The declared types by name. -/
structure Schema where
  decls : List (String × Decl) := []
  /-- The blank values of the types that have one of their own. -/
  defaults : List (String × Value) := []

/-- The declaration of a name. -/
def Schema.find? (Γ : Schema) (name : String) : Option Decl := Γ.decls.lookup name

end Marshal
