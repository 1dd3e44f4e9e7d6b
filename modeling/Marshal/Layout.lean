import Marshal.Model.Members
import Marshal.Shape

/-!
# Layouts of declared types

The field trees of a model say how its values are laid out (`Field.shape?`), so a list of items
gives a schema (`Package.ofItems?`).  What the items do not declare themselves comes from a
`Vocabulary`: names for other types, types that go over the wire through conversions, blank values
of types, and how the keys of maps compare.
-/

namespace Marshal

/-- Types that are known by name without being declared as items. -/
structure Vocabulary where
  /-- Names for other types. -/
  synonyms : List (String × Shape) := []
  /-- Types that go over the wire through conversions. -/
  conversions : List (String × Conversion) := []
  /-- The blank values of declared types that have one of their own. -/
  defaults : List (String × Value) := []
  /-- How the values of a type compare as keys of a map. -/
  order : TypeExpr → KeyOrder := fun _ => .structural

/-- The keys of a map, whose type is given. -/
def Vocabulary.keys (vocabulary : Vocabulary) (visit : Visit) (key : TypeExpr) : Keys :=
  ⟨vocabulary.order key, visit⟩

/-- The shape of a type, given the types among its arguments with their shapes.  Borrowed text is
text, and a box has the shape of its content. -/
def Vocabulary.shapeOf (vocabulary : Vocabulary) (s : Segment)
    (arguments : List (TypeExpr × Option Shape)) : Option Shape :=
  match s.ident, arguments with
  | "Vec", [(_, some inner)] => some (.seq inner)
  | "Option", [(_, some inner)] => some (.option inner)
  | "Box", [(_, some inner)] => some (.delegate inner)
  | "HashMap", [(k, some key), (_, some value)] | "HashMap", [(k, some key), (_, some value), _] =>
    some (.map (vocabulary.keys .hashed k) key value)
  | "BTreeMap", [(k, some key), (_, some value)] =>
    some (.map (vocabulary.keys .sorted k) key value)
  | "str", [] => some (.scalar .text none)
  | ident, [] =>
    match Scalar.ofName? ident, vocabulary.synonyms.lookup ident with
    | some scalar, _ => some (.scalar scalar none)
    | none, some shape => some shape
    | none, none => some (.ref ident)
  | _, _ => none

mutual

/-- The shape of a type whose own code is used. -/
def TypeExpr.shape? (vocabulary : Vocabulary) : TypeExpr → Option Shape
  | .paren t | .hidden t | .reference _ _ t => t.shape? vocabulary
  | .array t length =>
    match t.shape? vocabulary, length.toNat? with
    | some inner, some size => some (.array size inner)
    | _, _ => none
  | .slice t => (t.shape? vocabulary).map .seq
  | .path _ segments => segmentsShape? vocabulary segments
  | .tuple _ | .function _ | .pointer _ _ | .traitObject _ | .someType _ | .associated ..
  | .never | .infer | .invocation _ => none

/-- The shape of a path, which its last segment decides. -/
def segmentsShape? (vocabulary : Vocabulary) : List Segment → Option Shape
  | [] => none
  | [.parenthesised _ _ _] => none
  | [s] => vocabulary.shapeOf s (segmentShapes vocabulary s)
  | _ :: s :: ss => segmentsShape? vocabulary (s :: ss)

/-- The types among the arguments of a segment with their shapes. -/
def segmentShapes (vocabulary : Vocabulary) : Segment → List (TypeExpr × Option Shape)
  | .plain _ | .parenthesised _ _ _ => []
  | .applied _ _ arguments => argumentShapes vocabulary arguments

/-- The types among arguments with their shapes. -/
def argumentShapes (vocabulary : Vocabulary) : List Argument → List (TypeExpr × Option Shape)
  | [] => []
  | .type t :: as => (t, t.shape? vocabulary) :: argumentShapes vocabulary as
  | .lifetime _ :: as | .other _ :: as => argumentShapes vocabulary as

end

/-- The last name of a list of segments. -/
def lastIdent? : List Segment → Option String
  | [] => none
  | [s] => some s.ident
  | _ :: s :: ss => lastIdent? (s :: ss)

/-- The last name of a path. -/
def TypeExpr.lastIdent? : TypeExpr → Option String
  | .path _ segments => Marshal.lastIdent? segments
  | _ => none

/-- The length of an array type. -/
def TypeExpr.arraySize? : TypeExpr → Option Nat
  | .array _ length => length.toNat?
  | _ => none

/-- How a map of the given type visits its entries. -/
def TypeExpr.visit (t : TypeExpr) : Visit :=
  if t.lastIdent? = some "BTreeMap" then .sorted else .hashed

/-- The shape of a field. -/
def Field.shape? (vocabulary : Vocabulary) : Field → Option Shape
  | leaf info _ (some w) => some (.scalar w.scalar info.modifiers.cast)
  | leaf info t none =>
    match info.modifiers.cast with
    | none => (t.shape? vocabulary).map .delegate
    | some w =>
      match t.lastIdent?.bind fun ident => vocabulary.conversions.lookup ident with
      | none => none
      | some c => some (.converted c w)
  | array _ t _ inner =>
    match t.arraySize?, inner.shape? vocabulary with
    | some size, some s => some (.array size s)
    | _, _ => none
  | sequence _ _ _ inner => (inner.shape? vocabulary).map .seq
  | map _ t _ key value =>
    match key.shape? vocabulary, value.shape? vocabulary with
    | some k, some v => some (.map (vocabulary.keys t.visit key.type) k v)
    | _, _ => none
  | optional _ _ _ inner => (inner.shape? vocabulary).map .option
  | synonym _ _ _ inner => (inner.shape? vocabulary).map .staged
  | member _ _ _ inner => inner.shape? vocabulary

/-- The slot of a part. -/
def Part.slot? (vocabulary : Vocabulary) (p : Part) : Option Slot :=
  match p.field.shape? vocabulary with
  | none => none
  | some shape =>
    some
      { label := p.label, shape,
        offWire := p.field.modifiers.offWire,
        uncompared := p.field.modifiers.uncompared }

/-- The member of a table entry. -/
def MemberEntry.member? (vocabulary : Vocabulary) (e : MemberEntry) : Option Member :=
  match e.inner.shape? vocabulary with
  | none => none
  | some shape => some { name := e.variant, shape }

/-- All results, if none is missing. -/
def allSome {α : Type} : List (Option α) → Option (List α)
  | [] => some []
  | none :: _ => none
  | some a :: as => (allSome as).map (a :: ·)

/-- Declared types and union definitions. -/
structure Package where
  schema : Schema := {}
  unions : List (String × Members) := []

namespace Package

/-- Adds a declaration. -/
def declare (p : Package) (name : String) (d : Decl) : Package :=
  { p with schema := { p.schema with decls := p.schema.decls ++ [(name, d)] } }

/-- Adds what a model declares.  The definition of a union comes before its holders. -/
def add? (vocabulary : Vocabulary) (p : Package) (m : Model) : Option Package :=
  match m.role with
  | .definition =>
    (allSome (m.members.map (MemberEntry.member? vocabulary))).map fun u =>
      { p with unions := p.unions ++ [(m.name, u)] }
  | .holder definition =>
    ((lastIdent? definition.segments).bind fun ident => p.unions.lookup ident).map fun u =>
      p.declare m.name (.holder u)
  | .none | .record =>
    (allSome (m.parts.map (Part.slot? vocabulary))).map fun slots =>
      p.declare m.name (.record slots)

/-- Adds what a list of items declares. -/
def addItems? (vocabulary : Vocabulary) : Package → List Item → Option Package
  | p, [] => some p
  | p, item :: items =>
    match item.model.result with
    | .error _ => none
    | .ok m =>
      match p.add? vocabulary m with
      | none => none
      | some p' => p'.addItems? vocabulary items

/-- What a list of items declares, if all of them are well formed. -/
def ofItems? (vocabulary : Vocabulary) (items : List Item) : Option Package :=
  addItems? vocabulary { schema := { defaults := vocabulary.defaults } } items

end Package

end Marshal
