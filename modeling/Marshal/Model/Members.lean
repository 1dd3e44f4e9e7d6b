import Marshal.Model.Basic

/-!
# Members of a union

The variants of a union definition become its members, in the order of declaration and with tags
from `1` on.  Each wraps exactly one type, and no two wrap the same.  `Model.members` is the table
of the members, `Model.tag?` looks a variant up in it.
-/

namespace Marshal

/-- The field that a variant wraps. -/
def Variant.content? (v : Variant) : Option FieldDecl :=
  match v.fields with
  | .tuple [d] => some d
  | _ => none

/-- Builds the member of a variant under a tag, after the members in `before`. -/
def Variant.member (union : String) (before : List Part) (tag : Nat) (v : Variant) :
    Except BuildError Part :=
  if v.numbered then .error .discriminant
  else
    match v.content? with
    | none => .error .memberCount
    | some d =>
      if 255 < tag then .error .tooManyMembers
      else
        match Modifiers.read d.attributes with
        | .error e => .error e
        | .ok m =>
          if m.skips then .error .memberSkipped
          else
            match Field.build (union ++ "::" ++ v.name) d 1 with
            | .error e => .error e
            | .ok f =>
              if before.any fun p => p.field.typeText == f.typeText then
                .error (.duplicateMember f.typeText union)
              else .ok ⟨.name v.name, .member f.info tag 0 f⟩

/-- Builds the members of the variants from a tag on, after the members in `before`.  Each is
reported with its tag. -/
def memberParts (union : String) : (before : List Part) → (tag : Nat) → List Variant →
    Traced (List Part)
  | before, _, [] => .pure before
  | before, tag, v :: vs =>
    (Traced.ofExcept (v.member union before tag)).bind fun p =>
      (Traced.report (.assignedTag union p.field.typeText tag)).bind fun _ =>
        memberParts union (before ++ [p]) (tag + 1) vs

/-- The model of a union definition. -/
def definitionModel (name : String) (variants : List Variant) : Traced Model :=
  (memberParts name [] 1 variants).bind fun ps => .pure ⟨name, .definition, ps⟩

/-- What a role makes of an item. -/
def Item.modelAs (item : Item) (role : Role) : Traced Model :=
  if item.generics.isEmpty then
    match item.body, role with
    | .record _, .definition => .fail .definitionNotEnum
    | .record fields, .holder definition => holderModel item.name definition fields.toList
    | .record fields, .none | .record fields, .record => recordModel item.name fields
    | .enumeration variants, .definition => definitionModel item.name variants
    | .enumeration _, _ => .fail .enumNotDefinition
    | .untagged _, _ => .fail .untaggedUnion
  else .fail .genericItem

/-- What an item declares. -/
def Item.model (item : Item) : Traced Model :=
  (Traced.ofExcept (ItemSettings.read item.attributes)).bind fun o => item.modelAs o.role

/-! ### The table of members -/

/-- A member of a union definition. -/
structure MemberEntry where
  variant : String
  tag : Nat
  depth : Nat
  /-- The field of the wrapped type. -/
  inner : Field

/-- The member that a part stands for. -/
def Part.member? (p : Part) : Option MemberEntry :=
  match p.label, p.field with
  | .name variant, .member _ tag depth inner => some ⟨variant, tag, depth, inner⟩
  | _, _ => none

namespace Model

/-- The members of a union definition.  Other items have none. -/
def members (m : Model) : List MemberEntry := m.parts.filterMap Part.member?

/-- The number of tags, the tag `0` of an empty holder included. -/
def tagCount (m : Model) : Nat := m.members.length + 1

/-- The tag of the first variant with a name. -/
def tag? (m : Model) (variant : String) : Option Nat :=
  (m.members.find? fun e => e.variant == variant).map MemberEntry.tag

end Model

end Marshal
