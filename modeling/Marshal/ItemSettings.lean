import Marshal.PathText
import Marshal.Declaration.Attribute

/-!
# Item settings

The attributes of an item say what it is to become (`Role`) and where emitted code finds the
run-time library.  `ItemSettings.read` collects them.
-/

namespace Marshal

/-- What an item is to become. -/
inductive Role where
  /-- Nothing is said: a record. -/
  | none
  /-- A record. -/
  | record
  /-- A holder for the members of the named union. -/
  | holder (definition : Path)
  /-- The definition of a union. -/
  | definition

/-- Nothing is said. -/
def Role.isNone : Role → Bool
  | none => true
  | _ => false

/-- What the attributes of an item ask for. -/
structure ItemSettings where
  role : Role := .none
  /-- Where emitted code finds the run-time library, if that is said. -/
  runtime : Option Path := .none

namespace ItemSettings

/-- Where emitted code finds the run-time library unless something else is said. -/
def defaultRuntime : Path := ⟨true, [.plain "cod"]⟩

/-- Where emitted code finds the run-time library. -/
def runtimePath (o : ItemSettings) : Path := o.runtime.getD defaultRuntime

/-- Says what the item becomes, which can be said only once. -/
def takeRole (o : ItemSettings) (d : Role) : Except BuildError ItemSettings :=
  if o.role.isNone then .ok { o with role := d } else .error .conflictingRoles

/-- Says what the item becomes, with a key that takes no value. -/
def takeRoleAlone (o : ItemSettings) (d : Role) (value : AttrValue) :
    Except BuildError ItemSettings :=
  match o.takeRole d with
  | .error e => .error e
  | .ok o' => if value = .none then .ok o' else .error .expectedComma

/-- The path after a key that needs one: a string that spells it, or the path itself. -/
def unionPath : AttrValue → Except BuildError Path
  | .string s => Path.read .unexpectedToken s
  | .path s => Path.read .expectedComma s
  | .number => .error .expectedIdentifier
  | .none | .list => .error .expectedEquals

/-- Takes up one entry of an attribute. -/
def step (o : ItemSettings) (key : String) (value : AttrValue) : Except BuildError ItemSettings :=
  if key = "struct" then o.takeRoleAlone .record value
  else if key = "def" then o.takeRoleAlone .definition value
  else if key = "union" then
    match unionPath value with
    | .error e => .error e
    | .ok p => o.takeRole (.holder p)
  else if key = "crate" then
    match value.string? with
    | .error e => .error e
    | .ok s =>
      match Path.read .unexpectedToken s with
      | .error e => .error e
      | .ok p => .ok { o with runtime := some p }
  else .error .unknownItemAttribute

/-- What the attributes of an item ask for. -/
def read (attributes : List Attribute) : Except BuildError ItemSettings :=
  Attribute.fold step {} attributes

end ItemSettings

end Marshal
