import Marshal.Schema.Blank

/-!
# Decoding

A decoder works on a *receiver*, a value that is already there, and overwrites it with what it
reads.  It answers with an `Outcome`: how many bytes it used or why it failed, and the receiver as
it was left, also after a failure.

* Scalars, optional values, holders and staged values are replaced when they are complete
  (`Decoder.ofReader`).
* Records and arrays are overwritten part by part (`Decoder.inPlace`).
* Sequences and maps are cleared and filled up (`Decoder.refill`).

The definitions follow the shape; the decoders of the declared types are a parameter of them, and
`Schema.decodeNamed` ties the knot.
-/

namespace Marshal

/-- What a decoder answers. -/
structure Outcome where
  /-- The number of bytes used, or the fault. -/
  result : Except Fault Nat
  /-- The receiver as the decoder leaves it. -/
  receiver : Value

/-- A decoder overwrites a receiver with what it reads. -/
abbrev Decoder := Value → List UInt8 → Outcome

/-- Reads `count` values one after the other.  Of the input, `used` bytes are behind, and `got`
collects the values; those before a fault are kept. -/
def Reader.collect {α : Type} (r : Reader α) :
    (count : Nat) → List UInt8 → (used : Nat) → (got : Array α) → Except Fault Nat × Array α
  | 0, _, used, got => (.ok used, got)
  | count + 1, bs, used, got =>
    match r bs with
    | .error e => (.error e, got)
    | .ok (a, n) => r.collect count (bs.drop n) (used + n) (got.push a)

/-- Decodes the values of a list in place, each with its decoder, up to the first fault. -/
def decodeSlots : List Decoder → List Value → List UInt8 → Except Fault Nat × List Value
  | d :: ds, v :: vs, bs =>
    match d v bs with
    | ⟨.error e, v'⟩ => (.error e, v' :: vs)
    | ⟨.ok n, v'⟩ =>
      match decodeSlots ds vs (bs.drop n) with
      | (.error e, vs') => (.error e, v' :: vs')
      | (.ok m, vs') => (.ok (n + m), v' :: vs')
  | _, vs, _ => (.ok 0, vs)

namespace Decoder

/-- Leaves the receiver alone and uses no input. -/
def keep : Decoder := fun v _ => ⟨.ok 0, v⟩

/-- Replaces the receiver by what is read, if it can be read. -/
def ofReader (r : Reader Value) : Decoder := fun v bs =>
  match r bs with
  | .error e => ⟨.error e, v⟩
  | .ok (a, n) => ⟨.ok n, a⟩

/-- Reads a value afresh, starting from `blank`. -/
def fresh (d : Decoder) (blank : Value) : Reader Value := fun bs =>
  match d blank bs with
  | ⟨.error e, _⟩ => .error e
  | ⟨.ok n, v⟩ => .ok (v, n)

/-- Reads the number of items, clears the receiver and fills it up.  If the number is `checked`, one
that exceeds the number of bytes left is refused before the receiver is cleared. -/
def refill {α : Type} (checked : Bool) (item : Reader α) (build : List α → Value) : Decoder :=
  fun v bs =>
    match Varint.read bs with
    | .error e => ⟨.error e, v⟩
    | .ok (count, n) =>
      if checked ∧ !atLeast count.toNat (bs.drop n) then ⟨.error .truncated, v⟩
      else
        match item.collect count.toNat (bs.drop n) n #[] with
        | (result, got) => ⟨result, build got.toList⟩

/-- Decodes the parts of the receiver in place, each with its decoder.  A receiver without such parts
is left alone. -/
def inPlace (parts? : Value → Option (List Value)) (build : List Value → Value)
    (decoders : List Value → List Decoder) : Decoder := fun v bs =>
  match parts? v with
  | some vs =>
    match decodeSlots (decoders vs) vs bs with
    | (result, vs') => ⟨result, build vs'⟩
  | none => keep v bs

end Decoder

/-- Reads a scalar that was written as its type is or in the wire kind of a cast. -/
def Scalar.read (s : Scalar) : Option Wire → Reader Value
  | none => s.wire.read.map .datum
  | some w => w.read.map fun d => .datum (w.scalar.convert s d)

/-- Reads an optional value: a byte `0` alone, or any other byte and then the value. -/
def readOption (content : Reader Value) : Reader Value :=
  Reader.byte.andThen fun presence =>
    if presence = 0 then .pure .absent else content.map .present

/-- The items of a sequence or an array. -/
def Value.items? : Value → Option (List Value)
  | .items vs => some vs
  | _ => none

/-- The slots of a record. -/
def Value.slots? : Value → Option (List Value)
  | .record vs => some vs
  | _ => none

/-- The value of a list of bytes. -/
def Value.ofBytes (bs : List UInt8) : Value := .items (bs.map fun b => .datum (.int b.toNat))

/-- The decoder of a shape, given those of the declared types. -/
def Shape.decode (Γ : Schema) (named : String → Decoder) : Style → Shape → Decoder
  | _, scalar s cast => .ofReader (s.read cast)
  | _, converted c w => .ofReader (w.read.map fun d => .datum (c.ofWire d))
  | _, delegate s => s.decode Γ named .generic
  | _, ref name => named name
  | style, staged s => .ofReader ((s.decode Γ named style).fresh (Γ.blank s))
  | style, option s => .ofReader (readOption ((s.decode Γ named style).fresh (Γ.blank s)))
  | style, array _ s =>
    .inPlace Value.items? .items fun vs => vs.map fun _ => s.decode Γ named style
  | style, seq s =>
    if style = .expanded ∧ s.isRawByte then .ofReader (readBytes.map Value.ofBytes)
    else
      .refill (decide (style = .expanded) && s.takesBytes)
        ((s.decode Γ named style).fresh (Γ.blank s)) .items
  | style, map keys key value =>
    .refill (decide (style = .expanded) && (key.takesBytes || value.takesBytes))
      (((key.decode Γ named style).fresh (Γ.blank key)).andThen fun k =>
        ((value.decode Γ named style).fresh (Γ.blank value)).map fun v => (k, v))
      (fun es => .entries (Entries.ofList es keys.compare))

/-- The decoder of a slot: the slots off the wire keep their values. -/
def Slot.decode (Γ : Schema) (named : String → Decoder) (slot : Slot) : Decoder :=
  if slot.offWire then .keep else slot.shape.decode Γ named .expanded

/-- Reads the member of a union that carries the tag. -/
def Members.readMember (Γ : Schema) (named : String → Decoder) (u : Members) (tag : UInt8) :
    Reader Value :=
  match u.member? tag.toNat with
  | none => fun _ => .error (.unknownTag tag)
  | some m => ((m.shape.decode Γ named .expanded).fresh (Γ.blank m.shape)).map (.member tag.toNat)

/-- Reads what a holder holds: the tag `0` alone, or a tag and then the member. -/
def Members.readHeld (Γ : Schema) (named : String → Decoder) (u : Members) : Reader Value :=
  Reader.byte.andThen fun tag =>
    if tag = 0 then .pure .absent else (u.readMember Γ named tag).map .present

/-- The decoder of a declared type. -/
def Decl.decode (Γ : Schema) (named : String → Decoder) : Decl → Decoder
  | record slots =>
    .inPlace Value.slots? .record fun _ => slots.map fun slot => slot.decode Γ named
  | holder u => .ofReader (u.readHeld Γ named)

namespace Schema

/-- The decoder of a name.  Of the input, `limit` bytes were left when references were last counted
afresh, and `budget` more of them can be followed before the next byte is used.  Once there are
fewer than `limit` bytes, the counting starts again. -/
def decodeNamed (Γ : Schema) (limit budget : Nat) (name : String) : Decoder := fun v bs =>
  if bs.length < limit then Γ.decodeNamed bs.length Γ.decls.length name v bs
  else
    match budget, Γ.find? name with
    | budget + 1, some d => d.decode Γ (Γ.decodeNamed limit budget) v bs
    | _, _ => ⟨.error .truncated, v⟩
termination_by (limit, budget)

/-- Decodes a value in place.  Where a declared type comes back to itself it has used a byte on the
way, and between two bytes it passes through each declared type at most once, so the budget is the
number of declared types. -/
def decode (Γ : Schema) (style : Style) (s : Shape) : Decoder := fun v bs =>
  s.decode Γ (Γ.decodeNamed bs.length Γ.decls.length) style v bs

/-- Decodes a value afresh. -/
def decodeFresh (Γ : Schema) (style : Style) (s : Shape) : Reader Value :=
  (Γ.decode style s).fresh (Γ.blank s)

/-- Reads the member of a union that carries the tag. -/
def readMember (Γ : Schema) (u : Members) (tag : UInt8) : Reader Value := fun bs =>
  u.readMember Γ (Γ.decodeNamed bs.length Γ.decls.length) tag bs

end Schema

end Marshal
