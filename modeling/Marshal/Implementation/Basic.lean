import Marshal.Code.Tokens

/-!
# Implementations

Emitted code is a list of implementations, each a sequence of tokens.  This module has what their
texts have in common.
-/

namespace Marshal

open Token

/-- An emitted implementation. -/
abbrev Implementation := List Token

namespace Implementation

/-- The attribute with the given tokens. -/
def attr (inner : List Token) : List Token := [atom "#", bracket inner]

/-- Marks what was not written by hand. -/
def derived : List Token := attr (words ["automatically_derived"])

/-- A lint of the compiler. -/
def lint (name : String) : List Token := words [name]

/-- A lint of the style checker. -/
def styleLint (name : String) : List Token := words ["clippy", "::", name]

/-- Switches lints off. -/
def allow (lints : List (List Token)) : List Token :=
  attr [atom "allow", paren (separated "," lints)]

/-- The implementation of a trait of the run-time library for a type. -/
def ofTrait (runtime : List Token) (trait name : String) (body : List Token) : Implementation :=
  derived ++ atom "impl" :: below runtime [trait] ++ words ["for", name] ++ [brace body]

/-- The type of the buffer that encoding appends to. -/
def bufferType : List Token :=
  words ["&", "mut"] ++ absolute ["std", "vec", "Vec"] ++ words ["<", "u8", ">"]

/-- The type of the input that decoding reads. -/
def inputType : List Token := [atom "&", bracket (words ["u8"])]

/-- The type of a result that may be a fault. -/
def resultType (runtime value : List Token) : List Token :=
  absolute ["core", "result", "Result"] ++ atom "<" :: value ++ atom "," ::
    below runtime ["Error"] ++ [atom ">"]

/-- A successful result. -/
def okTokens (value : List Token) : List Token :=
  absolute ["core", "result", "Result", "Ok"] ++ [paren value]

/-- The function that encodes a value into the buffer with the given name. -/
def encodeFn (buffer : String) (body : List Token) : List Token :=
  words ["fn", "encode_cod"] ++
    [paren (words ["&", "self", ",", buffer, ":"] ++ bufferType), brace body]

/-- The function that decodes into a value from the input with the given name. -/
def decodeFn (runtime : List Token) (input : String) (body : List Token) : List Token :=
  words ["fn", "decode_cod"] ++
    [paren (words ["&", "mut", "self", ",", input, ":"] ++ inputType ++ [atom ","]), atom "->"] ++
    resultType runtime (words ["usize"]) ++ [brace body]

/-- The function that compares a value with the other one of the given name. -/
def equalsFn (other : String) (body : List Token) : List Token :=
  words ["fn", "cod_equals"] ++
    [paren (words ["&", "self", ",", other, ":", "&", "Self"]), atom "->", atom "bool",
      brace body]

/-- The lints that encoding code may run into. -/
def encodeLints : List (List Token) :=
  [lint "unused_variables", styleLint "cast_possible_truncation",
    styleLint "needless_range_loop"]

/-- The lints that decoding code may run into. -/
def decodeLints : List (List Token) :=
  [lint "unused_mut", lint "unused_variables", lint "unused_assignments",
    styleLint "cast_possible_truncation", styleLint "needless_range_loop"]

/-- Starts the running offset. -/
def startOffset : List Token := words ["let", "mut", "n", ":", "usize", "=", "0", ";"]

end Implementation

end Marshal
