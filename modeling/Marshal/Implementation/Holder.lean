import Marshal.Implementation.Record

/-!
# Implementations of union holders

A holder is encoded as its tag and what it holds, and it has functions to make one and to look into
it.
-/

namespace Marshal

open Token

namespace Part

/-- The place of the part in the value at hand. -/
def selfTokens (p : Part) : List Token := (p.placeIn "self").tokens

/-- Looks at the part without taking it. -/
def selfRefTokens (p : Part) : List Token :=
  p.selfTokens ++ words [".", "as_ref"] ++ [paren []]

end Part

namespace Implementation

/-- A line of documentation. -/
def doc (line : String) : List Token :=
  attr (words ["doc", "=", "r\" " ++ line ++ "\""])

/-- The tag of a value. -/
def tagOf (value : String) : List Token := words [value, ".", "tag"] ++ [paren []]

/-- Anything that can be turned into a member. -/
def intoType (definition : List Token) : List Token :=
  atom "impl" :: absolute ["core", "convert", "Into"] ++ atom "<" :: definition ++ [atom ">"]

/-- The definition as an implementation of its trait. -/
def asDefinition (runtime definition : List Token) : List Token :=
  atom "<" :: definition ++ atom "as" :: below runtime ["UnionDef"] ++ [atom ">"]

/-- The function that encodes a holder. -/
def holderEncode (runtime : List Token) (p : Part) : List Token :=
  encodeFn "bs"
    (words ["let", "tag", "="] ++ tagOf "self" ++ atom ";" ::
      Code.writeTokens runtime "write_u8" (words ["tag"]) ++
      words ["if", "tag", "=="] ++ below runtime ["UNION_EMPTY"] ++
      brace (words ["return", ";"]) ::
      words ["if", "let"] ++ Code.someTokens (atom "value") ++ words ["=", "&"] ++ p.selfTokens ++
      [brace
        (below runtime ["UnionDef", "encode_member"] ++
          [paren (words ["value", ",", "bs"]), atom ";"])])

/-- The function that decodes a holder. -/
def holderDecode (runtime definition : List Token) (p : Part) : List Token :=
  decodeFn runtime "bs"
    ([atom "let", paren (words ["tag", ",", "mut", "n"]), atom "="] ++
      below runtime ["backend", "read_u8"] ++ paren (words ["bs"]) :: words ["?", ";"] ++
      words ["if", "tag", "=="] ++ below runtime ["UNION_EMPTY"] ++
      brace
        (p.selfTokens ++ atom "=" :: Code.noneTokens ++ words [";", "return"] ++
          okTokens (words ["n"]) ++ [atom ";"]) ::
      [atom "let", paren (words ["value", ",", "n_off"]), atom "="] ++
      asDefinition runtime definition ++ words ["::", "decode_member"] ++
      paren (words ["tag", ","] ++ Code.restTokens) :: words ["?", ";"] ++
      Code.advanceTokens ++
      words ["self", ".", "set"] ++ [paren (words ["value"]), atom ";"] ++
      okTokens (words ["n"]))

/-- The function that compares two holders. -/
def holderEquals (runtime : List Token) (p : Part) : List Token :=
  equalsFn "other"
    (atom "if" :: tagOf "self" ++ atom "!=" :: tagOf "other" ++ Code.returnFalse ::
      [atom "match",
        paren ((p.placeIn "self").refTokens ++ atom "," :: (p.placeIn "other").refTokens),
        brace
          ([paren
              (Code.someTokens (atom "lhs") ++ atom "," :: Code.someTokens (atom "rhs") ++
                [atom ","]),
              atom "=>"] ++
            below runtime ["UnionDef", "member_equals"] ++
            paren (words ["lhs", ",", "rhs"]) :: words [",", "_", "=>", "true", ","])])

/-- The functions to make a holder and to look into it. -/
def holderMethods (runtime definition : List Token) (p : Part) : List Token :=
  (doc "Creates a holder holding `value`." ++ words ["pub", "fn", "new"] ++
    [paren (words ["value", ":"] ++ intoType definition), atom "->", atom "Self",
      brace
        [atom "Self",
          brace
            (words [p.label.text, ":"] ++ absolute ["core", "option", "Option", "Some"] ++
              [paren (words ["value", ".", "into"] ++ [paren []])])]]) ++
  (doc "The wire tag of the held member, or `0` when empty." ++ words ["pub", "fn", "tag"] ++
    paren (words ["&", "self"]) :: words ["->", "u8"] ++
    [brace
      (p.selfRefTokens ++ words [".", "map_or"] ++
        [paren
          (below runtime ["UNION_EMPTY"] ++ atom "," :: below runtime ["UnionDef", "tag"])])]) ++
  (doc "Number of members plus one for the empty tag." ++ words ["pub", "const", "fn", "size"] ++
    paren (words ["&", "self"]) :: words ["->", "usize"] ++
    [brace (asDefinition runtime definition ++ words ["::", "SIZE"])]) ++
  (doc "The held member, if any." ++ words ["pub", "fn", "get"] ++
    [paren (words ["&", "self"]), atom "->"] ++ absolute ["core", "option", "Option"] ++
    words ["<", "&"] ++ definition ++ [atom ">", brace p.selfRefTokens]) ++
  (doc "Replaces the held member." ++ words ["pub", "fn", "set"] ++
    [paren (words ["&", "mut", "self", ",", "value", ":"] ++ intoType definition),
      brace
        (p.selfTokens ++ atom "=" :: absolute ["core", "option", "Option", "Some"] ++
          [paren (words ["value", ".", "into"] ++ [paren []]), atom ";"])])

end Implementation

namespace Model

open Implementation

/-- The implementations of a union holder.  Without a part to hold the member there are none. -/
def holderImplementations (m : Model) (runtime : List Token) (definition : Path) :
    List Implementation :=
  match m.parts with
  | [] => []
  | p :: _ =>
    [ofTrait runtime "Encode" m.name (holderEncode runtime p),
      ofTrait runtime "Decode" m.name (holderDecode runtime definition.tokens p),
      ofTrait runtime "CodEquals" m.name (holderEquals runtime p),
      derived ++ allow [lint "dead_code"] ++ words ["impl", m.name] ++
        [brace (holderMethods runtime definition.tokens p)]]

end Model

end Marshal
