import Marshal.Field.Basic

/-!
# Field trees of types

`Field.ofType` builds the field tree of a type.  The last name of a path decides: `Vec`, `HashMap`,
`BTreeMap` and `Option` with the right number of types as arguments are containers, a scalar type
without arguments is a leaf with a wire kind, and every other path is a leaf with its own code.
Arguments that are not types do not count, and neither do those in parentheses.  `Field.build` also
takes the modifiers of a declaration and checks that a cast only reaches leaves that can be cast.
-/

namespace Marshal

namespace Field

/-- The field of a path whose last segment is `s`, given the fields of the types among its
arguments, of which only those that the shape calls for may fail. -/
def ofSegment (type : TypeExpr) (depth : Nat) (s : Segment)
    (arguments : List (Except BuildError Field)) : Except BuildError Field :=
  match s.ident, arguments with
  | "Vec", [inner] =>
    match inner with
    | .error e => .error e
    | .ok inner => .ok (sequence {} type depth inner)
  | "HashMap", [key, value] | "HashMap", [key, value, _] | "BTreeMap", [key, value] =>
    match key, value with
    | .error e, _ => .error e
    | .ok _, .error e => .error e
    | .ok key, .ok value => .ok (map {} type depth key value)
  | "Option", [inner] =>
    match inner with
    | .error e => .error e
    | .ok inner => .ok (optional {} type depth inner)
  | ident, _ =>
    match s with
    | .plain _ => .ok (leaf {} type (Wire.ofTypeName? ident))
    | .applied _ _ _ | .parenthesised _ _ _ => .ok (leaf {} type none)

mutual

/-- The field of a type that stands `depth` containers deep. -/
def ofType : TypeExpr → (depth : Nat) → Except BuildError Field
  | .paren t, depth | .hidden t, depth => ofType t depth
  | .array t length, depth =>
    match ofType t (depth + 1) with
    | .error e => .error e
    | .ok inner => .ok (array {} (.array t length) depth inner)
  | .path leading segments, depth => ofSegments (.path leading segments) depth segments
  | .associated .., _ => .error .associatedType
  | .tuple _, _ => .error .tupleType
  | .function _, _ => .error .functionType
  | .traitObject _, _ | .someType _, _ => .error .traitObjectType
  | .reference _ _ _, _ | .pointer _ _, _ => .error .pointerType
  | .slice _, _ => .error .unsizedSlice
  | .never, _ | .infer, _ | .invocation _, _ => .error .unsupportedType

/-- The field of a path, which its last segment decides. -/
def ofSegments (type : TypeExpr) (depth : Nat) : List Segment → Except BuildError Field
  | [] => .error .emptyPath
  | [s] => ofSegment type depth s (segmentFields s (depth + 1))
  | _ :: s :: ss => ofSegments type depth (s :: ss)

/-- The fields of the types among the arguments of a segment. -/
def segmentFields : Segment → (depth : Nat) → List (Except BuildError Field)
  | .plain _, _ | .parenthesised _ _ _, _ => []
  | .applied _ _ arguments, depth => argumentFields arguments depth

/-- The fields of the types among arguments. -/
def argumentFields : List Argument → (depth : Nat) → List (Except BuildError Field)
  | [], _ => []
  | .type t :: as, depth => ofType t depth :: argumentFields as depth
  | .lifetime _ :: as, depth | .other _ :: as, depth => argumentFields as depth

end

/-- A cast only reaches numbers and types with their own code. -/
def requireCastable : Field → Except BuildError Unit
  | leaf info t wire =>
    match info.modifiers.cast, wire with
    | some _, some w => if w.numeric then .ok () else .error (.cannotCast t.text)
    | _, _ => .ok ()
  | map _ _ _ key value =>
    match key.requireCastable with
    | .error e => .error e
    | .ok () => value.requireCastable
  | array _ _ _ inner | sequence _ _ _ inner | optional _ _ _ inner | synonym _ _ _ inner
  | member _ _ _ inner => inner.requireCastable

/-- Gives a field its name and the modifiers of its declaration. -/
def finish (name : String) (attributes : List Attribute) (f : Field) : Except BuildError Field :=
  match Modifiers.read attributes with
  | .error e => .error e
  | .ok m =>
    let f := (f.withName name).withModifiers m
    match f.requireCastable with
    | .error e => .error e
    | .ok () => .ok f

/-- The field of a declaration. -/
def build (name : String) (d : FieldDecl) (depth : Nat) : Except BuildError Field :=
  match ofType d.type depth with
  | .error e => .error e
  | .ok f => f.finish name d.attributes

end Field

end Marshal
