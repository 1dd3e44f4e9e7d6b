import Marshal.Implementation.Record

/-!
# Implementations of union definitions

A union definition gives every member its tag and encodes, decodes and compares what a member wraps.
A value of each member's type can be turned into the member.
-/

namespace Marshal

open Token

namespace MemberEntry

/-- The local name for what the member wraps. -/
def value (e : MemberEntry) : Local := ⟨.value, e.depth⟩

/-- The local name for the left side of a comparison. -/
def lhs (e : MemberEntry) : Local := ⟨.lhs, e.depth⟩

/-- The local name for the right side of a comparison. -/
def rhs (e : MemberEntry) : Local := ⟨.rhs, e.depth⟩

/-- The member applied to some tokens. -/
def applied (e : MemberEntry) (inner : List Token) : List Token :=
  words ["Self", "::", e.variant] ++ [paren inner]

/-- The tag of the member. -/
def tagToken (e : MemberEntry) : Token := atom (toString e.tag)

/-- The code that encodes what the member wraps. -/
def encodeCode (e : MemberEntry) : Code := e.inner.encodeCode (.deref e.value)

/-- The code that decodes what the member wraps. -/
def decodeCode (e : MemberEntry) : Code :=
  .seq (.bindFresh e.value e.inner.type e.inner.fresh) (e.inner.decodeCode (.var e.value))

/-- The code that compares what two values of the member wrap. -/
def equalityCode (e : MemberEntry) : Code :=
  e.inner.equalityCode (.deref e.lhs) (.deref e.rhs)

/-- The case of the member in the function that gives the tag. -/
def tagArm (e : MemberEntry) : List Token :=
  e.applied (words ["_"]) ++ [atom "=>", e.tagToken, atom ","]

/-- The case of the member in the function that encodes. -/
def encodeArm (runtime : List Token) (e : MemberEntry) : List Token :=
  e.applied [atom "ref", e.value.token] ++ [atom "=>", brace (e.encodeCode.tokens runtime)]

/-- The case of the member in the function that decodes. -/
def decodeArm (runtime : List Token) (e : MemberEntry) : List Token :=
  [e.tagToken, atom "=>",
    brace
      (e.decodeCode.tokens runtime ++
        Implementation.okTokens [paren (e.applied [e.value.token] ++ words [",", "n"])])]

/-- The case of the member in the function that compares. -/
def equalityArm (runtime : List Token) (e : MemberEntry) : List Token :=
  [paren (e.applied [e.lhs.token] ++ atom "," :: e.applied [e.rhs.token]), atom "=>",
    brace (e.equalityCode.tokens runtime ++ words ["true"])]

/-- The implementation that turns a value into the member of the named union. -/
def conversionImplementation (name : String) (e : MemberEntry) : Implementation :=
  Implementation.derived ++ atom "impl" :: absolute ["core", "convert", "From"] ++ atom "<" ::
    e.inner.type.tokens ++ words [">", "for", name] ++
    [brace
      (words ["fn", "from"] ++
        [paren (words ["value", ":"] ++ e.inner.type.tokens), atom "->", atom "Self",
          brace (e.applied (words ["value"]))])]

end MemberEntry

namespace Model

open Implementation

/-- The functions of a union definition. -/
def definitionBody (m : Model) (runtime : List Token) : List Token :=
  words ["const", "SIZE", ":", "usize", "=", toString m.tagCount ++ "usize", ";"] ++
    (words ["fn", "tag"] ++ [paren (words ["&", "self"])] ++ words ["->", "u8"] ++
      [brace (words ["match", "*", "self"] ++ [brace (m.members.flatMap MemberEntry.tagArm)])]) ++
    (allow encodeLints ++ words ["fn", "encode_member"] ++
      [paren (words ["&", "self", ",", "bs", ":"] ++ bufferType),
        brace (words ["match", "*", "self"] ++
          [brace (m.members.flatMap (MemberEntry.encodeArm runtime))])]) ++
    (allow (decodeLints ++ [styleLint "match_single_binding"]) ++ words ["fn", "decode_member"] ++
      [paren (words ["tag", ":", "u8", ",", "bs", ":"] ++ inputType ++ [atom ","]), atom "->"] ++
      resultType runtime [paren (words ["Self", ",", "usize"])] ++
      [brace
        (startOffset ++ words ["match", "tag"] ++
          [brace
            (m.members.flatMap (MemberEntry.decodeArm runtime) ++ words ["_", "=>"] ++
              absolute ["core", "result", "Result", "Err"] ++
              [paren (below runtime ["Error", "UnknownUnionType"] ++ [paren (words ["tag"])]),
                atom ","])])]) ++
    (allow
        [lint "unreachable_patterns", styleLint "float_cmp", styleLint "needless_range_loop",
          styleLint "match_single_binding"] ++
      words ["fn", "member_equals"] ++
      [paren (words ["&", "self", ",", "other", ":", "&", "Self"])] ++ words ["->", "bool"] ++
      [brace
        [atom "match", paren (words ["self", ",", "other"]),
          brace
            (m.members.flatMap (MemberEntry.equalityArm runtime) ++
              words ["_", "=>", "false", ","])]])

/-- The implementations of a union definition. -/
def definitionImplementations (m : Model) (runtime : List Token) : List Implementation :=
  ofTrait runtime "UnionDef" m.name (m.definitionBody runtime) ::
    m.members.map (MemberEntry.conversionImplementation m.name)

end Model

end Marshal
