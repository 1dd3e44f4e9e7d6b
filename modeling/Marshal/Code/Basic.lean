import Marshal.TypeExpr
import Marshal.Wire

/-!
# Emitted code

`Code` is the small language in which the code for a field is emitted: writing to a buffer, reading
from it at a running offset, and comparing two values.  Every local name carries the depth of the
node that binds it (`Local`), so that nested nodes do not capture each other's names.  A `Place` is
an expression for where a value is.
-/

namespace Marshal

/-- What a local name is used for. -/
inductive Family where
  /-- The index of a loop. -/
  | i
  /-- A value read afresh, or the content of an optional value. -/
  | value
  /-- A number of items. -/
  | length
  /-- A key read afresh. -/
  | key
  /-- A value read afresh for a key. -/
  | val
  /-- The key of a visited entry. -/
  | k
  /-- The value of a visited entry. -/
  | v
  /-- The left side of a comparison. -/
  | lhs
  /-- The right side of a comparison. -/
  | rhs
deriving DecidableEq, Repr

/-- The text of a family. -/
def Family.text : Family → String
  | i => "i"
  | value => "value"
  | length => "length"
  | key => "key"
  | val => "val"
  | k => "k"
  | v => "v"
  | lhs => "lhs"
  | rhs => "rhs"

/-- A local name. -/
structure Local where
  family : Family
  /-- The depth of the node that binds the name. -/
  depth : Nat
deriving DecidableEq, Repr

/-- The text of a local name. -/
def Local.text (x : Local) : String := x.family.text ++ toString x.depth

/-- An expression for where a value is. -/
inductive Place where
  /-- Given from outside. -/
  | root (tokens : List Token)
  /-- A local variable. -/
  | var (x : Local)
  /-- What a local variable refers to. -/
  | deref (x : Local)
  /-- An item of a sequence or an array. -/
  | item (p : Place) (i : Local)

/-- An expression for a blank value. -/
inductive Fresh where
  /-- The default of the type. -/
  | byDefault
  /-- An array of blank values. -/
  | arrayOf (element : Fresh)

/-- How a value is handed to a writer. -/
inductive Outgoing where
  | byValue (p : Place)
  | byReference (p : Place)
  /-- As a number of the type that the wire kind writes. -/
  | castTo (p : Place) (w : Wire)
  /-- Through the conversion of its type. -/
  | converted (p : Place)

/-- What is stored of a value that was read. -/
inductive Incoming where
  | asIs
  /-- As a number of the declared type. -/
  | castTo (type : TypeExpr)
  /-- Through the conversion of its type. -/
  | converted

/-- Emitted statements. -/
inductive Code where
  | skip
  | seq (first second : Code)
  /-- A block of its own. -/
  | block (body : Code)
  /-- Binds a name to a reference to a place. -/
  | bindRef (x : Local) (p : Place)
  /-- For every index of a sequence or an array. -/
  | forIndex (i : Local) (p : Place) (body : Code)
  -- writing
  /-- Encodes a value with the code of its type. -/
  | encodeNested (p : Place)
  /-- Writes a scalar. -/
  | write (w : Wire) (e : Outgoing)
  /-- Writes bytes behind their length. -/
  | writeBytes (p : Place)
  /-- Writes the number of items. -/
  | writeLength (p : Place)
  /-- Writes whether an optional value is there. -/
  | writePresence (there : Bool)
  /-- For every entry of a map. -/
  | forEntries (k v : Local) (p : Place) (body : Code)
  /-- Whether an optional value is there, with its content bound to a name. -/
  | caseOption (p : Place) (x : Local) (there absent : Code)
  -- reading
  /-- Decodes a value with the code of its type. -/
  | decodeNested (p : Place)
  /-- Reads a scalar into a place. -/
  | readInto (w : Wire) (p : Place) (e : Incoming)
  /-- Reads bytes behind their length into a place. -/
  | readBytesInto (p : Place)
  /-- Reads the number of items. -/
  | readLength (x : Local)
  /-- Refuses a number of items that exceeds the number of bytes left. -/
  | checkLength (x : Local)
  /-- Removes all items. -/
  | clear (p : Place)
  /-- As often as the number of items says. -/
  | times (x : Local) (body : Code)
  /-- Binds a name to a blank value. -/
  | bindFresh (x : Local) (type : TypeExpr) (e : Fresh)
  /-- Appends an item. -/
  | push (p : Place) (x : Local)
  /-- Puts in an entry. -/
  | insert (p : Place) (k v : Local)
  /-- Reads whether an optional value is there. -/
  | casePresence (absent there : Code)
  /-- Stores that an optional value is not there. -/
  | storeAbsent (p : Place)
  /-- Stores an optional value. -/
  | storePresent (p : Place) (x : Local)
  /-- Stores a value. -/
  | store (p : Place) (x : Local)
  -- comparing
  /-- Requires that two values are equal. -/
  | requireSame (p q : Place)
  /-- Requires that two values are equal by the code of their type. -/
  | requireEqual (p q : Place)
  /-- Requires that two sequences, arrays or maps have the same number of items. -/
  | requireSameLength (p q : Place)
  /-- Binds a name to the value of a key, which has to be there. -/
  | bindEntry (x : Local) (p : Place) (k : Local)
  /-- Requires that two optional values are both there, with their contents bound to names, or both
  absent. -/
  | caseBoth (p q : Place) (l r : Local) (there : Code)

/-- Statements one after the other. -/
def Code.ofList : List Code → Code
  | [] => .skip
  | [c] => c
  | c :: cs => .seq c (ofList cs)

end Marshal
