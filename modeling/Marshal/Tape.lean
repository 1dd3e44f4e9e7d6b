import Marshal.Wire

/-!
# Tapes

A tape is a growing sequence of bytes with a cursor.  Writing appends at the end and leaves the
cursor where it is; reading starts at the cursor and moves it past what was read, or leaves it alone
if the read fails.
-/

namespace Marshal

/-- What can be put on a tape in one go: a scalar in some wire kind, or bytes behind their
length. -/
inductive Kind where
  | wire (w : Wire)
  | bytes
deriving DecidableEq, Repr

/-- What is put on a tape. -/
inductive Content where
  | datum (d : Datum)
  | bytes (bs : List UInt8)
deriving DecidableEq, Repr

namespace Kind

/-- The bytes that stand for a content. -/
def write : Kind → Content → List UInt8
  | wire w, .datum d => w.write d
  | bytes, .bytes bs => writeBytes bs
  | _, _ => []

/-- Reads a content. -/
def read : Kind → Reader Content
  | wire w => w.read.map .datum
  | bytes => readBytes.map .bytes

/-- The content `c` is of this kind. -/
def Has : Kind → Content → Prop
  | wire w, .datum d => w.scalar.Has d
  | bytes, .bytes bs => bs.length < Width.w64.modulus
  | _, _ => False

/-- All kinds, by the names of their readers and writers. -/
def named : List (String × Kind) :=
  let wires := Scalar.all.map Scalar.wire ++ Wire.fixedKinds.map Prod.snd
  wires.map (fun w => (w.stem, wire w)) ++ [("bytes", bytes)]

/-- The kind of a name. -/
def ofName? (name : String) : Option Kind := named.lookup name

end Kind

/-- A sequence of bytes with a cursor. -/
structure Tape where
  /-- The bytes written so far. -/
  bytes : List UInt8 := []
  /-- How many of the bytes lie before the cursor. -/
  cursor : Nat := 0
deriving Repr

namespace Tape

/-- The bytes from the cursor on. -/
def pending (t : Tape) : List UInt8 := t.bytes.drop t.cursor

/-- Appends a content. -/
def write (t : Tape) (k : Kind) (c : Content) : Tape :=
  { t with bytes := t.bytes ++ k.write c }

/-- Reads a content at the cursor, with the number of bytes it takes. -/
def read (t : Tape) (k : Kind) : Except Fault (Content × Nat) × Tape :=
  match k.read t.pending with
  | .ok (c, n) => (.ok (c, n), { t with cursor := t.cursor + n })
  | .error e => (.error e, t)

/-- Moves the cursor to a place, or to the end if the place is beyond it. -/
def seek (t : Tape) (k : Nat) : Tape := { t with cursor := Min.min k t.bytes.length }

end Tape

end Marshal
