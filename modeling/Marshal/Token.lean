/-!
# Token trees

Emitted code, types and paths are sequences of tokens: atoms and bracketed groups.  `Token.render`
prints a sequence with one space between two tokens.
-/

namespace Marshal

/-- The brackets around a group. -/
inductive Delimiter where
  | paren
  | bracket
  | brace
deriving DecidableEq, Repr

/-- The text of a group.  Braces stand off from what they enclose, the other brackets do not. -/
def Delimiter.wrap (d : Delimiter) (inner : String) : String :=
  match d with
  | paren => "(" ++ inner ++ ")"
  | bracket => "[" ++ inner ++ "]"
  | brace => if inner = "" then "\x7b \x7d" else "\x7b " ++ inner ++ " \x7d"

/-- A token, or a group of tokens in brackets. -/
inductive Token where
  | atom (text : String)
  | group (d : Delimiter) (inner : List Token)
deriving Repr

mutual

/-- Whether two tokens are the same. -/
def Token.decEq : (s t : Token) → Decidable (s = t)
  | .atom a, .atom b => decidable_of_decidable_of_iff (p := a = b) (by simp)
  | .group d ss, .group e ts =>
    have := Token.decEqAll ss ts
    decidable_of_decidable_of_iff (p := d = e ∧ ss = ts) (by simp)
  | .atom _, .group _ _ => .isFalse (by simp)
  | .group _ _, .atom _ => .isFalse (by simp)

/-- Whether two sequences of tokens are the same. -/
def Token.decEqAll : (ss ts : List Token) → Decidable (ss = ts)
  | [], [] => .isTrue rfl
  | s :: ss, t :: ts =>
    have := Token.decEq s t
    have := Token.decEqAll ss ts
    decidable_of_decidable_of_iff (p := s = t ∧ ss = ts) (by simp)
  | [], _ :: _ => .isFalse (by simp)
  | _ :: _, [] => .isFalse (by simp)

end

instance : DecidableEq Token := Token.decEq

namespace Token

/-- The tokens with the given texts. -/
def words (texts : List String) : List Token := texts.map atom

/-- Tokens in parentheses. -/
abbrev paren (ts : List Token) : Token := group .paren ts

/-- Tokens in square brackets. -/
abbrev bracket (ts : List Token) : Token := group .bracket ts

/-- Tokens in braces. -/
abbrev brace (ts : List Token) : Token := group .brace ts

mutual

/-- The text of a token. -/
def text : Token → String
  | atom s => s
  | group d ts => d.wrap (" ".intercalate (texts ts))

/-- The texts of a sequence of tokens. -/
def texts : List Token → List String
  | [] => []
  | t :: ts => t.text :: texts ts

end

/-- The text of a sequence of tokens. -/
def render (ts : List Token) : String := " ".intercalate (texts ts)

/-- Sequences of tokens with a separator between them. -/
def separated (separator : String) : List (List Token) → List Token
  | [] => []
  | [ts] => ts
  | ts :: rest => ts ++ atom separator :: separated separator rest

end Token

end Marshal
