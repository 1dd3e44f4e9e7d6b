/-!
# Errors in declarations

Why a declaration is refused.  `BuildError.message` is the text shown to a user.
-/

namespace Marshal

/-- Why a declaration is refused. -/
inductive BuildError where
  -- the form of an attribute
  /-- The attribute has no arguments at all. -/
  | attributeWithoutArguments
  /-- The attribute is given a value instead of arguments. -/
  | attributeWithValue
  /-- A literal stands where a key is expected. -/
  | literalKey
  /-- The key needs a value. -/
  | expectedEquals
  /-- The value has to be a string. -/
  | expectedString
  /-- The value has to be a path. -/
  | expectedIdentifier
  /-- The key takes no value. -/
  | expectedComma
  /-- The text of a path does not consist of tokens. -/
  | notTokens
  /-- A path ends too early. -/
  | unexpectedEnd
  /-- A path goes on where it should end. -/
  | unexpectedToken
  /-- A keyword stands where a name is expected. -/
  | keyword (word : String)
  -- attributes of an item
  | unknownItemAttribute
  | conflictingRoles
  -- attributes of a field
  | unknownFieldAttribute
  | duplicateCast
  | unknownCast (name : String)
  | castNotNumeric
  | unknownSkip (name : String)
  -- types
  | associatedType
  | tupleType
  | functionType
  | traitObjectType
  | pointerType
  | unsizedSlice
  | unsupportedType
  | emptyPath
  /-- A field of this type is not a number and has no conversion. -/
  | cannotCast (type : String)
  -- items
  | genericItem
  | definitionNotEnum
  | enumNotDefinition
  | untaggedUnion
  | holderFieldCount
  | holderModifiers
  | holderMismatch (definition : String)
  -- union definitions
  | discriminant
  | memberCount
  | tooManyMembers
  | memberSkipped
  | duplicateMember (type definition : String)
deriving DecidableEq, Repr

/-- The text shown to a user. -/
def BuildError.message : BuildError → String
  | attributeWithoutArguments => "expected attribute arguments in parentheses: #[cod(...)]"
  | attributeWithValue => "expected parentheses: #[cod(...)]"
  | literalKey => "unexpected literal in nested attribute, expected ident"
  | expectedEquals => "expected `=`"
  | expectedString => "expected string literal"
  | expectedIdentifier => "expected identifier"
  | expectedComma => "expected `,`"
  | notTokens => "cannot parse string into token stream"
  | unexpectedEnd => "unexpected end of input, expected identifier"
  | unexpectedToken => "unexpected token"
  | keyword word => "expected identifier, found keyword `" ++ word ++ "`"
  | unknownItemAttribute =>
    "unknown cod item attribute, expected `struct`, `union`, `def` or `crate`"
  | conflictingRoles => "conflicting cod directives"
  | unknownFieldAttribute => "unknown cod field attribute, expected `cast` or `skip`"
  | duplicateCast => "duplicate `cast` modifier"
  | unknownCast name => "unknown cast type `" ++ name ++ "`"
  | castNotNumeric => "cast target must be a numeric wire type"
  | unknownSkip name =>
    "unknown skip capability `" ++ name ++ "`, expected `serdes` or `equality`"
  | associatedType =>
    "qualified associated types cannot be serialized; name the concrete type instead"
  | tupleType => "tuple types cannot be serialized; use a record type instead"
  | functionType => "function types cannot be serialized"
  | traitObjectType => "trait object types cannot be serialized"
  | pointerType =>
    "references and raw pointers cannot be decoded; use `Box<T>` or `Option<T>`"
  | unsizedSlice => "unsized slices cannot be serialized; use `Vec<T>`"
  | unsupportedType => "unsupported field type"
  | emptyPath => "empty type path"
  | cannotCast type =>
    "`" ++ type ++
      "` cannot be cast; only numeric fields and delegate types with `From` conversions can"
  | genericItem => "generic parameters are not supported on `Cod` types"
  | definitionNotEnum => "`#[cod(def)]` must be placed on an enum"
  | enumNotDefinition =>
    "enums can only derive `Cod` as union definitions; add `#[cod(def)]`"
  | untaggedUnion =>
    "Rust unions cannot derive `Cod`; use `#[cod(union = ...)]` on a holder struct"
  | holderFieldCount =>
    "a union holder must have exactly one field of type `Option<Definition>`"
  | holderModifiers => "union holder fields take no modifiers"
  | holderMismatch definition =>
    "union holder field must be `Option<" ++ definition ++
      ">` to match `#[cod(union = " ++ definition ++ ")]`"
  | discriminant => "union member tags follow declaration order; remove the discriminant"
  | memberCount =>
    "union definition variants must wrap exactly one member type, like `Variant(Member)`"
  | tooManyMembers => "a union definition can hold at most 255 members"
  | memberSkipped => "union members cannot be skipped"
  | duplicateMember type definition =>
    "member type `" ++ type ++ "` appears more than once in union definition `" ++
      definition ++ "`"

end Marshal
