import Marshal.ItemSettings
import Marshal.Event
import Marshal.Field.Build
import Marshal.Shape

/-!
# Models of items

A `Model` is what an item declares, checked and resolved: its role and the field trees of its
parts.  `Item.model` builds it.

* A record has a part for each field.  A tuple of one field is an alias.
* A holder has one part, an optional value of the definition that its role names.
* The definition of a union has a part for each variant, tagged from `1` on (`Model.Members`).
-/

namespace Marshal

/-- How a label is written in a place expression. -/
def Label.text : Label → String
  | name ident => ident
  | index i => toString i

/-- A part of an item. -/
structure Part where
  label : Label
  field : Field

/-- What an item declares. -/
structure Model where
  name : String
  role : Role
  parts : List Part

/-- The item has no parts. -/
def Model.isEmpty (m : Model) : Bool := m.parts.isEmpty

/-! ### Records -/

/-- The part of a record field.  The field is reported. -/
def FieldDecl.part (i : Nat) (d : FieldDecl) : Traced Part :=
  let label := (d.name.map Label.name).getD (.index i)
  (Traced.ofExcept (Field.build ("self." ++ label.text) d 0)).bind fun f =>
    (Traced.report (.builtField f.name f.kind f.typeText)).bind fun _ => .pure ⟨label, f⟩

/-- The part of a type that is another name for a type.  The alias is reported. -/
def FieldDecl.aliasPart (ident : String) (d : FieldDecl) : Traced Part :=
  let built : Except BuildError Field :=
    match Field.ofType d.type 1 with
    | .error e => .error e
    | .ok inner => (Field.synonym {} ident 0 inner).finish "self" d.attributes
  (Traced.ofExcept built).bind fun f =>
    (Traced.report (.builtAlias ident f.typeText)).bind fun _ => .pure ⟨.index 0, f⟩

/-- The parts of record fields, numbered from `i` on. -/
def recordParts : (i : Nat) → List FieldDecl → Traced (List Part)
  | _, [] => .pure []
  | i, d :: ds => (d.part i).bind fun p => (recordParts (i + 1) ds).bind fun ps => .pure (p :: ps)

/-- The model of a record. -/
def recordModel (name : String) (fields : FieldList) : Traced Model :=
  let parts :=
    match fields with
    | .tuple [d] => (d.aliasPart name).bind fun p => .pure [p]
    | fields => recordParts 0 fields.toList
  parts.bind fun ps => .pure ⟨name, .record, ps⟩

/-! ### Holders -/

/-- The last segment of a list of segments, if it is a name alone. -/
def plainName? : List Segment → Option String
  | [] => none
  | [.plain ident] => some ident
  | [.applied _ _ _] | [.parenthesised _ _ _] => none
  | _ :: s :: ss => plainName? (s :: ss)

/-- Type and path end in the same name, and neither has arguments there. -/
def endsAlike (t : TypeExpr) (p : Path) : Bool :=
  match t with
  | .path _ segments =>
    match plainName? segments, plainName? p.segments with
    | some a, some b => a == b
    | _, _ => false
  | _ => false

/-- The field is an optional value of the definition. -/
def Field.holds (definition : Path) : Field → Bool
  | .optional _ _ _ (.leaf _ t none) => endsAlike t definition
  | _ => false

/-- The model of a union holder. -/
def holderModel (name : String) (definition : Path) (fields : List FieldDecl) : Traced Model :=
  match fields with
  | [d] =>
    (Traced.ofExcept (Modifiers.read d.attributes)).bind fun m =>
      if m.isEmpty then
        (d.part 0).bind fun p =>
          if p.field.holds definition then .pure ⟨name, .holder definition, [p]⟩
          else .fail (.holderMismatch (definition.text.replace " " ""))
      else .fail .holderModifiers
  | _ => .fail .holderFieldCount

end Marshal
