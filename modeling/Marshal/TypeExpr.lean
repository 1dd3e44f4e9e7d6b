import Marshal.Token

/-!
# Type expressions

A `TypeExpr` is a type as it stands in a declaration.  A path names a type, and any of its segments
may have arguments; only the arguments in angle brackets that are types matter for the layout of a
value.  Where arguments are printed, lifetimes come first.  Texts that are kept as they are, such as
array lengths and trait bounds, are given as they are printed.
-/

namespace Marshal

mutual

/-- A type as it stands in a declaration. -/
inductive TypeExpr where
  /-- A path, absolute if it is leading. -/
  | path (leading : Bool) (segments : List Segment)
  /-- An array with its length. -/
  | array (element : TypeExpr) (length : String)
  /-- A slice without a length. -/
  | slice (element : TypeExpr)
  | tuple (components : List TypeExpr)
  /-- A function type. -/
  | function (arguments : List TypeExpr)
  /-- A reference. -/
  | reference (lifetime : Option String) (mutable : Bool) (target : TypeExpr)
  /-- A raw pointer. -/
  | pointer (mutable : Bool) (target : TypeExpr)
  /-- A trait object with its bounds. -/
  | traitObject (bounds : String)
  /-- Some type with the given bounds. -/
  | someType (bounds : String)
  /-- A type in parentheses. -/
  | paren (inner : TypeExpr)
  /-- A type in brackets that are not printed. -/
  | hidden (inner : TypeExpr)
  /-- The type that a trait, given by its path, associates with a type. -/
  | associated (self : TypeExpr) (leading : Bool) (trait : List Segment) (name : String)
  | never
  /-- A type left to inference. -/
  | infer
  /-- A type that is computed at compile time. -/
  | invocation (text : String)

/-- A segment of a path. -/
inductive Segment where
  /-- A name alone. -/
  | plain (ident : String)
  /-- A name with arguments, perhaps none, after `::` if it is `separate`. -/
  | applied (ident : String) (separate : Bool) (arguments : List Argument)
  /-- A name with the inputs of a function in parentheses, and perhaps its output. -/
  | parenthesised (ident : String) (inputs : List TypeExpr) (output : Option TypeExpr)

/-- An argument of a path segment. -/
inductive Argument where
  | type (t : TypeExpr)
  /-- A lifetime, with its apostrophe. -/
  | lifetime (name : String)
  /-- A constant or a binding. -/
  | other (text : String)

end

namespace Argument

/-- The argument is a lifetime. -/
def isLifetime : Argument → Bool
  | lifetime _ => true
  | type _ | other _ => false

/-- An argument that is not a type.  A lifetime starts with its only apostrophe. -/
def ofText (text : String) : Argument :=
  match text.toList with
  | '\'' :: cs => if cs.contains '\'' then other text else lifetime text
  | _ => other text

/-- The arguments end in a lifetime, and not all of them are lifetimes. -/
def endInLifetime (arguments : List Argument) : Bool :=
  arguments.getLast?.any isLifetime && arguments.any (!·.isLifetime)

end Argument

/-- The name in a segment. -/
def Segment.ident : Segment → String
  | plain ident | applied ident _ _ | parenthesised ident _ _ => ident

namespace TypeExpr

/-- The type with a name. -/
def named (ident : String) : TypeExpr := .path false [.plain ident]

/-- The type that a name makes out of other types. -/
def apply (ident : String) (arguments : List TypeExpr) : TypeExpr :=
  .path false [.applied ident false (arguments.map .type)]

end TypeExpr

open Token in
mutual

/-- The tokens of a type. -/
def TypeExpr.tokens : TypeExpr → List Token
  | .path leading segments => (if leading then words ["::"] else []) ++ segmentTokens segments
  | .array element length => [bracket (element.tokens ++ words [";", length])]
  | .slice element => [bracket element.tokens]
  | .tuple components =>
    match components with
    | [t] => [Token.paren (t.tokens ++ words [","])]
    | components => [Token.paren (typeTokens components)]
  | .function arguments => words ["fn"] ++ [Token.paren (typeTokens arguments)]
  | .reference lifetime mutable target =>
    words ("&" :: lifetime.toList ++ (if mutable then ["mut"] else [])) ++ target.tokens
  | .pointer mutable target => words ["*", if mutable then "mut" else "const"] ++ target.tokens
  | .traitObject bounds => words ["dyn", bounds]
  | .someType bounds => words ["impl", bounds]
  | .paren inner => [Token.paren inner.tokens]
  | .hidden inner => inner.tokens
  | .associated self leading trait name =>
    words ["<"] ++ self.tokens ++ words ["as"] ++ (if leading then words ["::"] else []) ++
      segmentTokens trait ++ words [">", "::", name]
  | .never => words ["!"]
  | .infer => words ["_"]
  | .invocation text => words [text]

/-- The tokens of types with commas between them. -/
def typeTokens : List TypeExpr → List Token
  | [] => []
  | [t] => t.tokens
  | t :: ts => t.tokens ++ atom "," :: typeTokens ts

/-- The tokens of path segments. -/
def segmentTokens : List Segment → List Token
  | [] => []
  | [s] => s.tokens
  | s :: ss => s.tokens ++ atom "::" :: segmentTokens ss

/-- The tokens of a path segment. -/
def Segment.tokens : Segment → List Token
  | .plain ident => [atom ident]
  | .applied ident separate arguments =>
    words (ident :: (if separate then ["::"] else [])) ++ atom "<" ::
      argumentTokens true arguments ++
      (if Argument.endInLifetime arguments then [atom ","] else []) ++
      argumentTokens false arguments ++ [atom ">"]
  | .parenthesised ident inputs output =>
    [atom ident, Token.paren (typeTokens inputs)] ++
      match output with
      | none => []
      | some t => atom "->" :: t.tokens

/-- The tokens of the arguments that are lifetimes, or of those that are not.  Lifetimes are printed
first, and every argument keeps the comma that it has in the list of all. -/
def argumentTokens (lifetimes : Bool) : List Argument → List Token
  | [] => []
  | [a] => if a.isLifetime = lifetimes then a.tokens else []
  | a :: as =>
    (if a.isLifetime = lifetimes then a.tokens ++ [atom ","] else []) ++
      argumentTokens lifetimes as

/-- The tokens of an argument. -/
def Argument.tokens : Argument → List Token
  | .type t => t.tokens
  | .lifetime name => [atom name]
  | .other text => [atom text]

end

/-- The text of a type. -/
def TypeExpr.text (t : TypeExpr) : String := Token.render t.tokens

/-- A path on its own. -/
structure Path where
  /-- Whether the path starts with `::`. -/
  leading : Bool := false
  segments : List Segment

namespace Path

/-- The path as a type. -/
def toType (p : Path) : TypeExpr := .path p.leading p.segments

/-- The tokens of a path. -/
def tokens (p : Path) : List Token := p.toType.tokens

/-- The text of a path. -/
def text (p : Path) : String := Token.render p.tokens

end Path

end Marshal
