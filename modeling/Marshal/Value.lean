import Marshal.Scalar

/-!
# Values

A `Value` is what a codec encodes and decodes: scalars, optional values, sequences, maps, records
and members of unions.  Maps are lists of entries.  `Entries.insert` keeps the entries of a map in
the order of its keys, with one entry for each key.  What the order is and which keys count as the
same is up to the map; `Value.compare` is the order that looks at all of a key.
-/

namespace Marshal

/-- The values that codecs work on. -/
inductive Value where
  /-- A scalar. -/
  | datum (d : Datum)
  /-- An optional value that is not there. -/
  | absent
  /-- An optional value that is there. -/
  | present (v : Value)
  /-- A sequence or an array. -/
  | items (vs : List Value)
  /-- A map, as its entries in the order they are visited. -/
  | entries (es : List (Value × Value))
  /-- A record, as its slots in the order of declaration. -/
  | record (vs : List Value)
  /-- A member of a union, under its tag. -/
  | member (tag : Nat) (v : Value)
deriving Repr

namespace Value

mutual

/-- How deep a value is nested. -/
def height : Value → Nat
  | datum _ => 0
  | absent => 0
  | present v => v.height + 1
  | items vs => heightOfAll vs + 1
  | entries es => heightOfEntries es + 1
  | record vs => heightOfAll vs + 1
  | member _ v => v.height + 1

/-- The greatest height of a list of values. -/
def heightOfAll : List Value → Nat
  | [] => 0
  | v :: vs => Max.max v.height (heightOfAll vs)

/-- The greatest height of the keys and values of a map. -/
def heightOfEntries : List (Value × Value) → Nat
  | [] => 0
  | (k, v) :: es => Max.max (Max.max k.height v.height) (heightOfEntries es)

end

end Value

/-- Integers compare by size, `false` is before `true`, and texts compare by their characters. -/
def Datum.compare : Datum → Datum → Ordering
  | .int a, .int b => Ord.compare a b
  | .int _, _ => .lt
  | .float _, .int _ => .gt
  | .float a, .float b => Ord.compare a b
  | .float _, _ => .lt
  | .bool _, .int _ => .gt
  | .bool _, .float _ => .gt
  | .bool a, .bool b => Ord.compare a b
  | .bool _, _ => .lt
  | .text a, .text b => Ord.compare a b
  | .text _, _ => .gt

namespace Value

/-- The position of a value's kind in the order of values. -/
def rank : Value → Nat
  | datum _ => 0
  | absent => 1
  | present _ => 2
  | items _ => 3
  | entries _ => 4
  | record _ => 5
  | member _ _ => 6

mutual

/-- The order by all parts of a value: an absent value is before any present one, and sequences
compare by their first difference. -/
def compare : Value → Value → Ordering
  | datum a, datum b => a.compare b
  | present a, present b => compare a b
  | items as, items bs => compareAll as bs
  | entries as, entries bs => compareEntries as bs
  | record as, record bs => compareAll as bs
  | member s a, member t b => (Ord.compare s t).then (compare a b)
  | a, b => Ord.compare a.rank b.rank

/-- Lists of values compare by their first difference. -/
def compareAll : List Value → List Value → Ordering
  | [], [] => .eq
  | [], _ :: _ => .lt
  | _ :: _, [] => .gt
  | a :: as, b :: bs => (compare a b).then (compareAll as bs)

/-- Lists of entries compare by their first difference, keys before values. -/
def compareEntries : List (Value × Value) → List (Value × Value) → Ordering
  | [], [] => .eq
  | [], _ :: _ => .lt
  | _ :: _, [] => .gt
  | (k, a) :: as, (l, b) :: bs =>
    ((compare k l).then (compare a b)).then (compareEntries as bs)

end

end Value

/-- The entries of a map. -/
abbrev Entries := List (Value × Value)

namespace Entries

variable (cmp : Value → Value → Ordering)

/-- The value of a key. -/
def find? (k : Value) : Entries → Option Value
  | [] => none
  | (l, v) :: es => if cmp k l = .eq then some v else find? k es

/-- Puts an entry into a map whose keys are in order.  An entry whose key compares equal keeps that
key and gives up its value. -/
def insert (k v : Value) : Entries → Entries
  | [] => [(k, v)]
  | (l, w) :: es =>
    match cmp k l with
    | .lt => (k, v) :: (l, w) :: es
    | .eq => (l, v) :: es
    | .gt => (l, w) :: insert k v es

/-- The map that holds the given entries, put in one after the other. -/
def ofList (es : Entries) (cmp : Value → Value → Ordering := Value.compare) : Entries :=
  es.foldl (fun m (k, v) => m.insert cmp k v) []

end Entries

end Marshal
