import Marshal.TypeExpr
import Marshal.BuildError
import Marshal.Lexeme

/-!
# Reading paths

`Path.read` reads a path from its text: names with `::` between them, perhaps one in front.  A name
may be followed by arguments in angle brackets, which are lifetimes or paths again.
-/

namespace Marshal

/-- The words that cannot name a segment of a path. -/
def reservedWords : List String :=
  ["_", "abstract", "as", "async", "await", "become", "box", "break", "const", "continue", "do",
    "dyn", "else", "enum", "extern", "false", "final", "fn", "for", "if", "impl", "in", "let",
    "loop", "macro", "match", "mod", "move", "mut", "override", "priv", "pub", "ref", "return",
    "static", "struct", "trait", "true", "type", "typeof", "unsafe", "unsized", "use", "virtual",
    "where", "while", "yield"]

/-- The words that are a segment on their own and take no arguments. -/
def anchorWords : List String := ["super", "self", "crate", "try"]

namespace Path

/-- The name at the front. -/
def readIdent : List Lexeme → Except BuildError (String × List Lexeme)
  | [] => .error .unexpectedEnd
  | .ident name :: rest =>
    if reservedWords.contains name then .error (.keyword name) else .ok (name, rest)
  | _ :: _ => .error .expectedIdentifier

/-- What follows the separator `::` at the front. -/
def afterColons? : List Lexeme → Option (List Lexeme)
  | .punct ':' true :: .punct ':' _ :: rest => some rest
  | _ => none

/-- What follows the opening bracket of arguments, if it is not part of an operator. -/
def afterLess? : List Lexeme → Option (List Lexeme)
  | .punct '<' true :: .punct '=' _ :: _ => none
  | .punct '<' true :: .punct '<' true :: .punct '=' _ :: _ => none
  | .punct '<' _ :: rest => some rest
  | _ => none

/-- Where arguments start: whether they are separate, and what follows their opening bracket. -/
def argumentsAt? (ls : List Lexeme) : Option (Bool × List Lexeme) :=
  match afterLess? ls, afterColons? ls with
  | some rest, _ => some (false, rest)
  | none, some (.punct '<' _ :: rest) => some (true, rest)
  | none, _ => none

/-- Where the next segment starts.  A separator before a parenthesis does not belong to the path. -/
def nextSegment? (ls : List Lexeme) : Option (List Lexeme) :=
  match afterColons? ls with
  | some (.opening .paren :: _) => none
  | rest => rest

/-- Whether a separator stands in front, and what follows it. -/
def readLeading (ls : List Lexeme) : Bool × List Lexeme :=
  match afterColons? ls with
  | some rest => (true, rest)
  | none => (false, ls)

mutual

/-- The segments at the front, with `depth` bounding how deep the calls nest. -/
def readSegments : (depth : Nat) → List Lexeme → Except BuildError (List Segment × List Lexeme)
  | 0, _ => .error .unexpectedToken
  | depth + 1, ls =>
    match readIdent ls with
    | .error e => .error e
    | .ok (name, rest) =>
      if anchorWords.contains name then readMore depth (.plain name) rest
      else
        match argumentsAt? rest with
        | none => readMore depth (.plain name) rest
        | some (separate, rest) =>
          match readArguments depth rest with
          | .error e => .error e
          | .ok (arguments, rest) => readMore depth (.applied name separate arguments) rest

/-- The segments after the first one. -/
def readMore : (depth : Nat) → Segment → List Lexeme →
    Except BuildError (List Segment × List Lexeme)
  | 0, _, _ => .error .unexpectedToken
  | depth + 1, s, ls =>
    match nextSegment? ls with
    | none => .ok ([s], ls)
    | some rest =>
      match readSegments depth rest with
      | .error e => .error e
      | .ok (segments, rest) => .ok (s :: segments, rest)

/-- The arguments up to the closing bracket. -/
def readArguments : (depth : Nat) → List Lexeme →
    Except BuildError (List Argument × List Lexeme)
  | 0, _ => .error .unexpectedToken
  | _ + 1, .punct '>' _ :: rest => .ok ([], rest)
  | depth + 1, ls =>
    match readArgument depth ls with
    | .error e => .error e
    | .ok (a, .punct ',' _ :: rest) =>
      match readArguments depth rest with
      | .error e => .error e
      | .ok (arguments, rest) => .ok (a :: arguments, rest)
    | .ok (a, .punct '>' _ :: rest) => .ok ([a], rest)
    | .ok (_, _) => .error .expectedComma

/-- An argument: a lifetime or a path. -/
def readArgument : (depth : Nat) → List Lexeme → Except BuildError (Argument × List Lexeme)
  | 0, _ => .error .unexpectedToken
  | _ + 1, .punct '\'' _ :: .ident name :: rest => .ok (.lifetime ("'" ++ name), rest)
  | depth + 1, ls =>
    match readSegments depth (readLeading ls).2 with
    | .error e => .error e
    | .ok (segments, rest) => .ok (.type (.path (readLeading ls).1 segments), rest)

end

/-- Reads a path that takes up the whole text; `leftover` is the error if it does not. -/
def read (leftover : BuildError) (text : String) : Except BuildError Path :=
  match Lexeme.ofText? text with
  | none => .error .notTokens
  | some ls =>
    match readSegments (3 * ls.length + 3) (readLeading ls).2 with
    | .error e => .error e
    | .ok (segments, []) => .ok ⟨(readLeading ls).1, segments⟩
    | .ok (_, _ :: _) => .error leftover

/-- The path that a text spells.  A text that cannot be read is cut at every `::`. -/
def ofText (text : String) : Path :=
  match read .unexpectedToken text with
  | .ok p => p
  | .error _ =>
    match text.splitOn "::" with
    | "" :: names => ⟨true, names.map .plain⟩
    | names => ⟨false, names.map .plain⟩

end Path

end Marshal
