import Marshal.Shape

/-!
# Equality

`Schema.equals` decides whether two values count as equal: scalars as their type compares them,
sequences and records part by part, and maps if they have the same number of entries and every key
of the one has an equal value in the other.  Slots that are left out of the comparison may differ.
Expanded code compares sequences position by position, generic code pair by pair.
-/

namespace Marshal

/-- Two lists have the same length, and what they hold at each position is related. -/
def sameAtPositions {α : Type} (same : α → α → Bool) (as bs : List α) : Bool :=
  let left := as.toArray
  let right := bs.toArray
  left.size == right.size &&
    (List.range left.size).all fun i =>
      match left[i]?, right[i]? with
      | some a, some b => same a b
      | _, _ => false

/-- Two lists have the same length, and each item is related to its partner. -/
def sameInPairs {α : Type} (same : α → α → Bool) (as bs : List α) : Bool :=
  as.length == bs.length && (as.zip bs).all fun (a, b) => same a b

/-- How code of a style compares sequences. -/
def Style.sameItems {α : Type} : Style → (α → α → Bool) → List α → List α → Bool
  | expanded => sameAtPositions
  | generic => sameInPairs

/-- Two values of a shape count as equal, given when those of the declared types do. -/
def Shape.equals (named : String → Value → Value → Bool) : Style → Shape → Value → Value → Bool
  | _, scalar s _, .datum a, .datum b => s.same a b
  | _, converted c _, .datum a, .datum b => c.same a b
  | _, delegate s, a, b => s.equals named .generic a b
  | style, staged s, a, b => s.equals named style a b
  | _, ref name, a, b => named name a b
  | _, option _, .absent, .absent => true
  | style, option s, .present a, .present b => s.equals named style a b
  | style, array _ s, .items as, .items bs | style, seq s, .items as, .items bs =>
    style.sameItems (s.equals named style) as bs
  | style, map keys _ value, .entries as, .entries bs =>
    as.length == bs.length &&
      as.all fun (k, a) =>
        match Entries.find? keys.compare k bs with
        | none => false
        | some b => value.equals named style a b
  | _, _, _, _ => false

/-- The slots of two records count as equal. -/
def equalSlots (named : String → Value → Value → Bool) :
    List Slot → List Value → List Value → Bool
  | [], _, _ => true
  | slot :: slots, a :: as, b :: bs =>
    (slot.uncompared || slot.shape.equals named .expanded a b) && equalSlots named slots as bs
  | _, _, _ => false

/-- Two members of a union count as equal: they carry the same tag, and their values do. -/
def Members.equalMembers (named : String → Value → Value → Bool) (u : Members) :
    Value → Value → Bool
  | .member s a, .member t b =>
    s == t &&
      match u.member? s with
      | none => false
      | some m => m.shape.equals named .expanded a b
  | _, _ => false

/-- Two values of a declared type count as equal. -/
def Decl.equals (named : String → Value → Value → Bool) : Decl → Value → Value → Bool
  | record slots, .record as, .record bs => equalSlots named slots as bs
  | holder _, .absent, .absent => true
  | holder u, .present a, .present b => u.equalMembers named a b
  | _, _, _ => false

namespace Schema

/-- Two values of a name count as equal, where references are followed at most `depth` deep. -/
def equalNamed (Γ : Schema) : (depth : Nat) → String → Value → Value → Bool
  | 0, _, _, _ => false
  | depth + 1, name, a, b =>
    match Γ.find? name with
    | none => false
    | some d => d.equals (Γ.equalNamed depth) a b

/-- Two values of a shape count as equal.  A declared type always wraps its parts, so references
nest no deeper than the first value does. -/
def equals (Γ : Schema) (style : Style) (s : Shape) (a b : Value) : Bool :=
  s.equals (Γ.equalNamed (a.height + 1)) style a b

/-- Two members of a union count as equal. -/
def equalMembers (Γ : Schema) (u : Members) (a b : Value) : Bool :=
  u.equalMembers (Γ.equalNamed (a.height + 1)) a b

end Schema

end Marshal
