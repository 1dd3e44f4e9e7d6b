import Marshal.Holder

/-!
# Encoding

`Schema.encodeOnto` appends a value of a shape to a buffer, and `Schema.encode` is what is appended.
The definitions follow the shape; what is written for a declared type is a parameter of them, and
`Schema.encodeNamed` and `Schema.encodeNamedOnto` tie the knot.
-/

namespace Marshal

/-- The byte that a small integer stands for. -/
def Value.toByte : Value → UInt8
  | .datum (.int v) => v.toNat.toUInt8
  | _ => 0

/-- What is written for a value of a shape, given what is written for the declared types.  A value
of another shape has no bytes. -/
def Shape.encode (named : String → Value → List UInt8) : Style → Shape → Value → List UInt8
  | _, scalar s none, .datum d => s.wire.write d
  | _, scalar s (some w), .datum d => w.write (s.convert w.scalar d)
  | _, converted c w, .datum d => w.write (c.toWire d)
  | _, delegate s, v => s.encode named .generic v
  | _, ref name, v => named name v
  | style, staged s, v => s.encode named style v
  | _, option _, .absent => [0]
  | style, option s, .present v => 1 :: s.encode named style v
  | style, array _ s, .items vs => vs.flatMap (s.encode named style)
  | style, seq s, .items vs =>
    if style = .expanded ∧ s.isRawByte then writeBytes (vs.map Value.toByte)
    else Varint.write vs.length ++ vs.flatMap (s.encode named style)
  | style, map _ key value, .entries es =>
    Varint.write es.length ++
      es.flatMap fun (k, v) => key.encode named style k ++ value.encode named style v
  | _, _, _ => []

/-- What is written for the slots of a record, in the order of declaration. -/
def encodeSlots (named : String → Value → List UInt8) : List Slot → List Value → List UInt8
  | slot :: slots, v :: vs =>
    (if slot.offWire then [] else slot.shape.encode named .expanded v) ++
      encodeSlots named slots vs
  | _, _ => []

/-- What is written for a member of a union, without its tag. -/
def Members.writeMember (named : String → Value → List UInt8) (u : Members) :
    Value → List UInt8
  | .member tag v =>
    match u.member? tag with
    | some m => m.shape.encode named .expanded v
    | none => []
  | _ => []

/-- What is written for a value of a declared type. -/
def Decl.encode (named : String → Value → List UInt8) : Decl → Value → List UInt8
  | record slots, .record vs => encodeSlots named slots vs
  | holder u, .present m => m.memberTag.toUInt8 :: u.writeMember named m
  | holder _, .absent => [0]
  | _, _ => []

namespace Schema

/-- What is written for a value of a name, where references are followed at most `depth` deep. -/
def encodeNamed (Γ : Schema) : (depth : Nat) → String → Value → List UInt8
  | 0, _, _ => []
  | depth + 1, name, v =>
    match Γ.find? name with
    | none => []
    | some d => d.encode (Γ.encodeNamed depth) v

/-- What is written for a value.  A declared type always wraps its parts, so references nest no
deeper than the value does. -/
def encode (Γ : Schema) (style : Style) (s : Shape) (v : Value) : List UInt8 :=
  s.encode (Γ.encodeNamed (v.height + 1)) style v

/-- What is written for a member of a union, without its tag. -/
def writeMember (Γ : Schema) (u : Members) (v : Value) : List UInt8 :=
  u.writeMember (Γ.encodeNamed (v.height + 1)) v

end Schema

/-! ### Appending to a buffer -/

/-- Appends a value of a shape to a buffer, given how the declared types are appended.  Sequences,
arrays and maps append their parts one after the other. -/
def Shape.encodeOnto (named : String → Value → List UInt8 → List UInt8) :
    Style → Shape → Value → List UInt8 → List UInt8
  | _, scalar s none, .datum d, b => b ++ s.wire.write d
  | _, scalar s (some w), .datum d, b => b ++ w.write (s.convert w.scalar d)
  | _, converted c w, .datum d, b => b ++ w.write (c.toWire d)
  | _, delegate s, v, b => s.encodeOnto named .generic v b
  | _, ref name, v, b => named name v b
  | style, staged s, v, b => s.encodeOnto named style v b
  | _, option _, .absent, b => b ++ [0]
  | style, option s, .present v, b => s.encodeOnto named style v (b ++ [1])
  | style, array _ s, .items vs, b => vs.foldl (fun b v => s.encodeOnto named style v b) b
  | style, seq s, .items vs, b =>
    if style = .expanded ∧ s.isRawByte then b ++ writeBytes (vs.map Value.toByte)
    else vs.foldl (fun b v => s.encodeOnto named style v b) (b ++ Varint.write vs.length)
  | style, map _ key value, .entries es, b =>
    es.foldl (fun b (k, v) => value.encodeOnto named style v (key.encodeOnto named style k b))
      (b ++ Varint.write es.length)
  | _, _, _, b => b

/-- Appends the slots of a record to a buffer, in the order of declaration. -/
def encodeSlotsOnto (named : String → Value → List UInt8 → List UInt8) :
    List Slot → List Value → List UInt8 → List UInt8
  | slot :: slots, v :: vs, b =>
    encodeSlotsOnto named slots vs
      (if slot.offWire then b else slot.shape.encodeOnto named .expanded v b)
  | _, _, b => b

/-- Appends a member of a union to a buffer, without its tag. -/
def Members.writeMemberOnto (named : String → Value → List UInt8 → List UInt8) (u : Members) :
    Value → List UInt8 → List UInt8
  | .member tag v, b =>
    match u.member? tag with
    | some m => m.shape.encodeOnto named .expanded v b
    | none => b
  | _, b => b

/-- Appends a value of a declared type to a buffer. -/
def Decl.encodeOnto (named : String → Value → List UInt8 → List UInt8) :
    Decl → Value → List UInt8 → List UInt8
  | record slots, .record vs, b => encodeSlotsOnto named slots vs b
  | holder u, .present m, b => u.writeMemberOnto named m (b ++ [m.memberTag.toUInt8])
  | holder _, .absent, b => b ++ [0]
  | _, _, b => b

namespace Schema

/-- Appends a value of a name to a buffer, where references are followed at most `depth` deep. -/
def encodeNamedOnto (Γ : Schema) : (depth : Nat) → String → Value → List UInt8 → List UInt8
  | 0, _, _, b => b
  | depth + 1, name, v, b =>
    match Γ.find? name with
    | none => b
    | some d => d.encodeOnto (Γ.encodeNamedOnto depth) v b

/-- Appends a value to a buffer. -/
def encodeOnto (Γ : Schema) (style : Style) (s : Shape) (v : Value) (b : List UInt8) : List UInt8 :=
  s.encodeOnto (Γ.encodeNamedOnto (v.height + 1)) style v b

/-- Appends a member of a union to a buffer, without its tag. -/
def writeMemberOnto (Γ : Schema) (u : Members) (v : Value) (b : List UInt8) : List UInt8 :=
  u.writeMemberOnto (Γ.encodeNamedOnto (v.height + 1)) v b

end Schema

end Marshal
