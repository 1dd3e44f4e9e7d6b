import Marshal.Implementation.Definition
import Marshal.Implementation.Holder

/-!
# Deriving implementations

`Item.derive` reads the attributes of an item, builds its model and emits its implementations.  What
was done on the way is reported.
-/

namespace Marshal

/-- The name of a role in reports. -/
def Role.label : Role → String
  | none => "None"
  | record => "Struct"
  | holder _ => "Union"
  | definition => "UnionDef"

namespace Model

/-- The implementations that a model asks for. -/
def implementations (m : Model) (runtime : Path) : List Implementation :=
  match m.role with
  | .holder definition => m.holderImplementations runtime.tokens definition
  | .definition => m.definitionImplementations runtime.tokens
  | .none | .record => m.recordImplementations runtime.tokens

/-- What is reported while the implementations are emitted. -/
def generateEvents (m : Model) : List Event :=
  .generating m.name m.role.label m.parts.length ::
    match m.role with
    | .definition => m.members.map fun e => .emittingMember m.name e.variant e.tag
    | _ => []

/-- Emits the implementations that a model asks for. -/
def generate (m : Model) (runtime : Path) : Traced (List Implementation) :=
  ⟨m.generateEvents, .ok (m.implementations runtime)⟩

end Model

/-- Derives the implementations of an item. -/
def Item.derive (item : Item) : Traced (List Implementation) :=
  (Traced.ofExcept (ItemSettings.read item.attributes)).bind fun o =>
    (item.modelAs o.role).bind fun m => m.generate o.runtimePath

end Marshal
