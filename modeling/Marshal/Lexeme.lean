import Marshal.Token
import Marshal.Text.Blank
import Marshal.Text.Literal

/-!
# Lexemes

`Lexeme.ofText?` cuts a text into lexemes: names, punctuation, literals and brackets.  White space
and comments stand between them; a comment that documents something counts as an attribute.  A text
with anything else in it, or with brackets that do not match, has no lexemes.
-/

namespace Marshal

/-- The smallest parts of a text that mean something. -/
inductive Lexeme where
  | ident (name : String)
  /-- A punctuation character, and whether another one touches it. -/
  | punct (c : Char) (joint : Bool)
  | literal
  | opening (d : Delimiter)
  | closing (d : Delimiter)
deriving DecidableEq, Repr

namespace Lexeme

/-! ### White space and comments -/

/-- The character is white space or a mark for the direction of writing. -/
def isSpace (c : Char) : Bool := Text.isBlank c || c.toNat == 0x200e || c.toNat == 0x200f

/-- A comment starts here. -/
def startsComment : List Char → Bool
  | '/' :: '/' :: _ | '/' :: '*' :: _ => true
  | _ => false

/-- A line and what follows it.  A carriage return belongs to the line unless a line feed comes
next. -/
def line : List Char → List Char × List Char
  | [] => ([], [])
  | '\n' :: cs | '\r' :: '\n' :: cs => ([], '\n' :: cs)
  | c :: cs =>
    match line cs with
    | (text, rest) => (c :: text, rest)

/-- What follows a comment in brackets, where `depth` of them are open. -/
def afterBlock? : (depth : Nat) → List Char → Option (List Char)
  | _, [] => none
  | depth, '/' :: '*' :: cs => afterBlock? (depth + 1) cs
  | depth, '*' :: '/' :: cs => if depth ≤ 1 then some cs else afterBlock? (depth - 1) cs
  | depth, _ :: cs => afterBlock? depth cs

/-- There is a carriage return without a line feed. -/
def hasBareReturn : List Char → Bool
  | [] => false
  | '\r' :: '\n' :: cs => hasBareReturn cs
  | c :: cs => c == '\r' || hasBareReturn cs

/-- What a comment stands for. -/
inductive Purpose where
  | remark
  /-- It documents what follows. -/
  | outer
  /-- It documents what it stands in. -/
  | inner
deriving DecidableEq, Repr

/-- The purpose of a comment, which the characters after its opening tell: an exclamation mark, or
its second character once more and not twice. -/
def Purpose.ofText (second : Char) : List Char → Purpose
  | '!' :: _ => inner
  | a :: b :: _ => if a = second ∧ b ≠ second then outer else remark
  | [a] => if a = second then outer else remark
  | [] => remark

/-- The lexemes of a comment: those of an attribute if it documents something. -/
def Purpose.lexemes : Purpose → List Lexeme
  | remark => []
  | outer => .punct '#' false :: documentation
  | inner => .punct '#' false :: .punct '!' false :: documentation
where
  documentation : List Lexeme :=
    [.opening .bracket, .ident "doc", .punct '=' false, .literal, .closing .bracket]

/-- A comment with the given text.  One that documents something holds no bare carriage return. -/
def comment? (purpose : Purpose) (text rest : List Char) : Option (List Lexeme × List Char) :=
  if purpose ≠ .remark ∧ hasBareReturn text then none else some (purpose.lexemes, rest)

/-- The comment at the front. -/
def readComment? : List Char → Option (List Lexeme × List Char)
  | '/' :: '*' :: '*' :: '/' :: rest => some ([], rest)
  | '/' :: '*' :: cs =>
    match afterBlock? 1 cs with
    | none => none
    | some rest => comment? (.ofText '*' cs) (cs.take (cs.length - rest.length)) rest
  | '/' :: '/' :: cs =>
    match line cs with
    | (text, rest) => comment? (.ofText '/' cs) text rest
  | _ => none

/-! ### Names -/

/-- The name at the front, not a raw one, and what follows it. -/
def plainName? : List Char → Option (List Char × List Char)
  | [] => none
  | c :: cs =>
    if Text.isNameStart c then
      some (c :: cs.takeWhile Text.isNameRest, cs.dropWhile Text.isNameRest)
    else none

/-- The words that cannot be raw names. -/
def neverRaw : List String := ["_", "super", "self", "Self", "crate"]

/-- The name at the front and what follows it. -/
def name? : List Char → Option (List Char × List Char)
  | 'r' :: '#' :: cs =>
    match plainName? cs with
    | some (name, rest) =>
      if neverRaw.contains (String.ofList name) then none else some ('r' :: '#' :: name, rest)
    | none => none
  | cs => plainName? cs

/-- The openings of literals, which are not names even if the literal does not end. -/
def literalOpenings : List String :=
  ["r\"", "r#\"", "r##", "b\"", "b'", "br\"", "br#", "c\"", "cr\"", "cr#"]

/-- The name at the front, where it is not part of a literal. -/
def ident? (cs : List Char) : Option (Lexeme × List Char) :=
  if literalOpenings.any fun s => s.toList.isPrefixOf cs then none
  else (name? cs).map fun (name, rest) => (.ident (String.ofList name), rest)

/-! ### Punctuation -/

/-- The punctuation characters. -/
def punctuation : List Char := "~!@#$%^&*-=+|;:,<.>/?'".toList

/-- A punctuation character stands here. -/
def startsPunct (cs : List Char) : Bool :=
  !startsComment cs && cs.head?.any fun c => punctuation.contains c

/-- The punctuation at the front.  An apostrophe stands before the name of a lifetime. -/
def punct? : List Char → Option (Lexeme × List Char)
  | [] => none
  | '\'' :: cs =>
    match name? cs with
    | some (_, '\'' :: _) => none
    | some (_, '#' :: _) =>
      if "r#".toList.isPrefixOf cs then some (.punct '\'' true, cs) else none
    | some _ => some (.punct '\'' true, cs)
    | none => none
  | c :: cs => if startsPunct (c :: cs) then some (.punct c (startsPunct cs), cs) else none

/-- The bracket that a character is. -/
def bracket? : Char → Option Lexeme
  | '(' => some (.opening .paren)
  | ')' => some (.closing .paren)
  | '[' => some (.opening .bracket)
  | ']' => some (.closing .bracket)
  | '\x7b' => some (.opening .brace)
  | '\x7d' => some (.closing .brace)
  | _ => none

/-! ### Texts -/

/-- The lexemes of what stands at the front, none if it is white space, and what follows it. -/
def next? : List Char → Option (List Lexeme × List Char)
  | [] => none
  | c :: cs =>
    if isSpace c then some ([], cs)
    else if startsComment (c :: cs) then readComment? (c :: cs)
    else
      match bracket? c with
      | some l => some ([l], cs)
      | none =>
        match Literal.skip? (c :: cs) with
        | some rest => some ([.literal], rest)
        | none => ((punct? (c :: cs)).or (ident? (c :: cs))).map fun (l, rest) => ([l], rest)

/-- The lexemes of a text, in at most `bound` steps. -/
def scan? : (bound : Nat) → List Char → Option (List Lexeme)
  | _, [] => some []
  | 0, _ :: _ => none
  | bound + 1, c :: cs =>
    match next? (c :: cs) with
    | none => none
    | some (ls, rest) => (scan? bound rest).map (ls ++ ·)

/-- The brackets match, where those in `opened` are still to be closed. -/
def balanced : (opened : List Delimiter) → List Lexeme → Bool
  | opened, [] => opened.isEmpty
  | opened, .opening d :: ls => balanced (d :: opened) ls
  | [], .closing _ :: _ => false
  | d :: opened, .closing e :: ls => d == e && balanced opened ls
  | opened, _ :: ls => balanced opened ls

/-- The text without a byte order mark in front. -/
def withoutMark : List Char → List Char
  | [] => []
  | c :: cs => if c.toNat = 0xfeff then cs else c :: cs

/-- The lexemes of a text. -/
def ofText? (text : String) : Option (List Lexeme) :=
  let cs := withoutMark text.toList
  match scan? cs.length cs with
  | none => none
  | some ls => if balanced [] ls then some ls else none

end Lexeme

end Marshal
