import Marshal.Layout

/-!
# Writing declarations

Short forms for the declarations of the catalogue, and its vocabulary: `Ids` and `Byte` are names
for other types, `Millis` and `Modded` go over the wire through conversions.
-/

namespace Marshal

namespace Catalogue

open TypeExpr

/-! ### Types -/

/-- An unsigned byte. -/
def u8 : TypeExpr := named "u8"

/-- An unsigned integer of 16 bits. -/
def u16 : TypeExpr := named "u16"

/-- An unsigned integer of 32 bits. -/
def u32 : TypeExpr := named "u32"

/-- An unsigned integer of 64 bits. -/
def u64 : TypeExpr := named "u64"

/-- An unsigned machine word. -/
def usize : TypeExpr := named "usize"

/-- A signed byte. -/
def i8 : TypeExpr := named "i8"

/-- A signed integer of 16 bits. -/
def i16 : TypeExpr := named "i16"

/-- A signed integer of 32 bits. -/
def i32 : TypeExpr := named "i32"

/-- A signed integer of 64 bits. -/
def i64 : TypeExpr := named "i64"

/-- A signed machine word. -/
def isize : TypeExpr := named "isize"

/-- A floating point number of single precision. -/
def f32 : TypeExpr := named "f32"

/-- A floating point number of double precision. -/
def f64 : TypeExpr := named "f64"

/-- A boolean. -/
def bool : TypeExpr := named "bool"

/-- A text. -/
def text : TypeExpr := named "String"

/-- A sequence. -/
def vec (t : TypeExpr) : TypeExpr := apply "Vec" [t]

/-- An optional value. -/
def opt (t : TypeExpr) : TypeExpr := apply "Option" [t]

/-- A value in a box of its own. -/
def box (t : TypeExpr) : TypeExpr := apply "Box" [t]

/-- An array. -/
def arr (size : Nat) (t : TypeExpr) : TypeExpr := .array t (toString size)

/-- A map in any order. -/
def hashMap (k v : TypeExpr) : TypeExpr := apply "HashMap" [k, v]

/-- A map in the order of its keys. -/
def sortedMap (k v : TypeExpr) : TypeExpr := apply "BTreeMap" [k, v]

/-! ### Items -/

/-- An attribute with entries. -/
def entries (es : List AttrEntry) : Attribute := ⟨Attribute.own, .entries es⟩

/-- Casts a field. -/
def cast (name : String) : Attribute := entries [.keyed "cast" (.string name)]

/-- Leaves a field out. -/
def skip (capabilities : String) : Attribute := entries [.keyed "skip" (.string capabilities)]

/-- A field with a name. -/
def field (name : String) (type : TypeExpr) (attributes : List Attribute := []) : FieldDecl :=
  { name := some name, type, attributes }

/-- A field without a name. -/
def item (type : TypeExpr) (attributes : List Attribute := []) : FieldDecl := { type, attributes }

/-- A record with named fields. -/
def record (name : String) (fields : List FieldDecl) (attributes : List Attribute := []) : Item :=
  { name, attributes, body := .record (.named fields) }

/-- A record whose fields have no names. -/
def tuple (name : String) (fields : List FieldDecl) : Item :=
  { name, body := .record (.tuple fields) }

/-- A record without fields. -/
def unit (name : String) : Item := { name, body := .record .unit }

/-- A member of a union. -/
def variant (name : String) (type : TypeExpr) (attributes : List Attribute := []) : Variant :=
  { name, fields := .tuple [item type attributes] }

/-- The definition of a union. -/
def definition (name : String) (variants : List Variant) : Item :=
  { name, attributes := [entries [.keyed "def" .none]], body := .enumeration variants }

/-- A holder for the members of a union. -/
def holder (name union : String) : Item :=
  { name, attributes := [entries [.keyed "union" (.path union)]],
    body := .record (.tuple [item (opt (named union))]) }

/-- A holder for the members of a union, in a field with a name. -/
def namedHolder (name fieldName union : String) (value : AttrValue) : Item :=
  { name, attributes := [entries [.keyed "union" value]],
    body := .record (.named [field fieldName (opt (named union))]) }

/-! ### Vocabulary -/

/-- A duration, which is converted to the number it holds. -/
def millis : Conversion where
  carrier := .int ⟨false, .w64⟩
  toWire := id
  ofWire := id
  same a b := a == b

/-- The last decimal digit of a datum. -/
def lastDigit : Datum → Int
  | .int v => v % 10
  | _ => 0

/-- A number that counts as equal to every other one with the same last digit. -/
def modded : Conversion where
  carrier := .int ⟨false, .w32⟩
  toWire := id
  ofWire := id
  same a b := lastDigit a == lastDigit b

/-- The types of the catalogue that are not declared in it. -/
def vocabulary : Vocabulary where
  synonyms :=
    [("Ids", .seq (.scalar (.int ⟨false, .w32⟩) none)), ("Byte", .scalar .byte none)]
  conversions := [("Millis", millis), ("Modded", modded)]

end Catalogue

end Marshal
