import Marshal.TypeExpr

/-!
# Declarations

An `Item` is the declaration of a type as it is found: a record, an enumeration or an untagged
union, with attributes on it and on its parts.
-/

namespace Marshal

/-- What follows a key in an attribute. -/
inductive AttrValue where
  /-- Nothing. -/
  | none
  /-- A string after `=`. -/
  | string (s : String)
  /-- A path after `=`. -/
  | path (text : String)
  /-- A number after `=`. -/
  | number
  /-- More arguments in parentheses. -/
  | list
deriving DecidableEq, Repr

/-- An entry of an attribute. -/
inductive AttrEntry where
  | keyed (key : String) (value : AttrValue)
  /-- A literal without a key. -/
  | literal
deriving DecidableEq, Repr

/-- What follows the path of an attribute. -/
inductive AttrBody where
  | entries (es : List AttrEntry)
  /-- Nothing. -/
  | bare
  /-- A value after `=`. -/
  | value
deriving DecidableEq, Repr

/-- An attribute. -/
structure Attribute where
  path : String
  body : AttrBody
deriving DecidableEq, Repr

/-- A field of a record or of a variant. -/
structure FieldDecl where
  /-- The name, if fields are named. -/
  name : Option String := none
  type : TypeExpr
  attributes : List Attribute := []

/-- The fields of a record or of a variant. -/
inductive FieldList where
  | named (fields : List FieldDecl)
  | tuple (fields : List FieldDecl)
  | unit

/-- The fields in order. -/
def FieldList.toList : FieldList → List FieldDecl
  | named fields | tuple fields => fields
  | unit => []

/-- A variant of an enumeration. -/
structure Variant where
  name : String
  fields : FieldList
  /-- Whether the variant is given a number. -/
  numbered : Bool := false
  attributes : List Attribute := []

/-- What kind of type is declared. -/
inductive ItemBody where
  | record (fields : FieldList)
  | enumeration (variants : List Variant)
  /-- A union without tags. -/
  | untagged (fields : FieldList)

/-- The declaration of a type. -/
structure Item where
  name : String
  attributes : List Attribute := []
  /-- The generic parameters. -/
  generics : List String := []
  body : ItemBody

/-- The path of the attributes that are read.  All others are ignored. -/
def Attribute.own : String := "cod"

end Marshal
