import Marshal.Catalogue.Records

/-!
# A catalogue of declared types

A schema with every kind of declared type, down to unions and types that contain themselves, and
the types built from other types that are used beside it.  `Catalogue.shape?` gives the shape of a
type by the text of its name.
-/

namespace Marshal

namespace Catalogue

open TypeExpr

/-- Unions with their members, holders and records that use them. -/
def unionItems : List Item :=
  [ record "Square" [field "side" u32],
    record "Circle" [field "radius" f64, field "label" (opt text)],
    definition "ShapeDef"
      [variant "Square" (named "Square"), variant "Circle" (named "Circle"), variant "Count" u64,
        variant "Name" text, variant "Raw" (vec u8)],
    holder "Shape" "ShapeDef",
    namedHolder "NamedShape" "value" "ShapeDef" (.string "ShapeDef"),
    record "Canvas"
      [field "title" text, field "shapes" (vec (named "Shape")), field "focus" (named "Shape")],
    definition "MyUnionDef"
      [variant "Id" (named "Id"), variant "SpecialMap" (named "SpecialMap"),
        variant "Vec" (named "Vec3")],
    holder "MyUnion" "MyUnionDef",
    definition "WideDef"
      [variant "Opt" (opt u32), variant "Arr" (arr 33 u8), variant "Map" (sortedMap u8 text),
        variant "Nested" (named "Shape"), variant "Cast" u16 [cast "fixed_u32"],
        variant "Seq" (vec u32), variant "Flag" bool, variant "Float" f32,
        variant "Unit" (named "Marker"), variant "Skippy" (named "Cached"),
        variant "Loose" (named "Stamped")],
    namedHolder "Wide" "slot" "WideDef" (.path "WideDef"),
    record "Branch" [field "left" (named "Tree"), field "right" (named "Tree")],
    definition "TreeDef" [variant "Leaf" i32, variant "Node" (box (named "Branch"))],
    holder "Tree" "TreeDef",
    definition "NothingDef" [],
    holder "Nothing" "NothingDef"]

/-- All declarations. -/
def items : List Item := plainRecords ++ modifiedRecords ++ synonymRecords ++ unionItems

/-- What the catalogue declares. -/
def package : Package := (Package.ofItems? vocabulary items).getD {}

/-- The schema of the catalogue. -/
def schema : Schema := package.schema

/-- The types built from other types, and borrowed forms of types, which can only be encoded. -/
def builtTypes : List TypeExpr :=
  [ vec u32, vec u8, vec text, vec (vec u16), vec (box i32), vec (named "Marker"), vec (opt f64),
    vec (arr 2 i16), vec (named "Shape"), vec (named "Cached"), opt u32, opt (opt u8),
    opt (vec u32), opt (box (named "Id")), arr 3 u16, arr 2 text, arr 2 (arr 2 u8), arr 0 u32,
    box u64, box text, hashMap text u32, hashMap u8 (vec u8),
    apply "HashMap" [i16, bool, named "FixedHash"], sortedMap i32 text,
    sortedMap text (sortedMap u8 bool), sortedMap (opt u8) i64, sortedMap u8 f32,
    sortedMap (vec u8) (named "Id"), named "str", box (named "str"), .slice u32, box (.slice u32),
    .slice text, .slice (opt u8), .reference none false i64,
    vec (.reference none false (named "str"))]

/-- The text of a type without spaces. -/
def key (text : String) : String := text.replace " " ""

/-- The shape of a type by the text of its name. -/
def shape? (name : String) : Option Shape :=
  match schema.find? name, Scalar.ofName? name with
  | some _, _ => some (.ref name)
  | none, some s => some (.scalar s none)
  | none, none =>
    (builtTypes.find? fun t => key t.text == key name).bind fun t => t.shape? vocabulary

/-- The members of a union by its name. -/
def union? (name : String) : Option Members := package.unions.lookup name

/-- The members of the union that a holder type holds. -/
def held? (name : String) : Option Members :=
  match schema.find? name with
  | some (.holder u) => some u
  | _ => none

end Catalogue

end Marshal
