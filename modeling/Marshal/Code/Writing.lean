import Marshal.Code.Basic
import Marshal.Field.Basic

/-!
# Code that encodes a field

`Field.encodeCode` emits the statements that write the value at a place.
-/

namespace Marshal

/-- How a leaf is handed to a writer: cast if there is a cast, through the conversion of its type if
that type is not a scalar. -/
def outgoing (cast wire : Option Wire) (encoded : Wire) (p : Place) : Outgoing :=
  match cast, wire with
  | none, _ => if encoded.byReference then .byReference p else .byValue p
  | some w, some _ => .castTo p w
  | some _, none => .converted p

/-- Writes the value at a place. -/
def Field.encodeCode : Field → Place → Code
  | leaf info _ wire, p =>
    match encodedWire info.modifiers wire with
    | none => .encodeNested p
    | some w => .write w (outgoing info.modifiers.cast wire w p)
  | array _ _ depth inner, p =>
    let i : Local := ⟨.i, depth⟩
    .forIndex i p (inner.encodeCode (.item p i))
  | sequence _ _ depth inner, p =>
    if inner.isRawByte then .writeBytes p
    else
      let i : Local := ⟨.i, depth⟩
      .seq (.writeLength p) (.forIndex i p (inner.encodeCode (.item p i)))
  | map _ _ depth key value, p =>
    let k : Local := ⟨.k, depth⟩
    let v : Local := ⟨.v, depth⟩
    .seq (.writeLength p)
      (.forEntries k v p (.seq (key.encodeCode (.deref k)) (value.encodeCode (.deref v))))
  | optional _ _ depth inner, p =>
    let x : Local := ⟨.value, depth⟩
    .caseOption p x (.seq (.writePresence true) (inner.encodeCode (.deref x)))
      (.writePresence false)
  | synonym _ _ depth inner, p =>
    let x : Local := ⟨.value, depth⟩
    .block (.seq (.bindRef x p) (inner.encodeCode (.deref x)))
  | member _ _ _ inner, p => inner.encodeCode p

end Marshal
