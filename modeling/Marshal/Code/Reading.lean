import Marshal.Code.Basic
import Marshal.Field.Basic

/-!
# Code that decodes a field

`Field.decodeCode` emits the statements that read a value into a place, and `Field.fresh` is the
blank value that reading starts from.
-/

namespace Marshal

/-- What is stored of a leaf that was read. -/
def incoming (cast wire : Option Wire) (type : TypeExpr) : Incoming :=
  match cast, wire with
  | none, _ => .asIs
  | some _, some _ => .castTo type
  | some _, none => .converted

/-- Refuses a number of items that the input cannot hold, where every item has a byte. -/
def lengthCheck (x : Local) (takesBytes : Bool) : Code :=
  if takesBytes then .checkLength x else .skip

namespace Field

/-- The blank value of a field.  Arrays are made item by item, since not every array has a
default. -/
def fresh : Field → Fresh
  | array _ _ _ inner => .arrayOf inner.fresh
  | member _ _ _ inner => inner.fresh
  | leaf .. | sequence .. | map .. | optional .. | synonym .. => .byDefault

/-- Reads a value into a place. -/
def decodeCode : Field → Place → Code
  | leaf info type wire, p =>
    match encodedWire info.modifiers wire with
    | none => .decodeNested p
    | some w => .readInto w p (incoming info.modifiers.cast wire type)
  | array _ _ depth inner, p =>
    let i : Local := ⟨.i, depth⟩
    .forIndex i p (inner.decodeCode (.item p i))
  | sequence _ _ depth inner, p =>
    if inner.isRawByte then .readBytesInto p
    else
      let length : Local := ⟨.length, depth⟩
      let x : Local := ⟨.value, depth⟩
      .block <| .ofList
        [.readLength length, lengthCheck length inner.takesBytes, .clear p,
          .times length <| .ofList
            [.bindFresh x inner.type inner.fresh, inner.decodeCode (.var x), .push p x]]
  | map _ _ depth key value, p =>
    let length : Local := ⟨.length, depth⟩
    let k : Local := ⟨.key, depth⟩
    let v : Local := ⟨.val, depth⟩
    .block <| .ofList
      [.readLength length, lengthCheck length (key.takesBytes || value.takesBytes), .clear p,
        .times length <| .ofList
          [.bindFresh k key.type key.fresh, .bindFresh v value.type value.fresh,
            key.decodeCode (.var k), value.decodeCode (.var v), .insert p k v]]
  | optional _ _ depth inner, p =>
    let x : Local := ⟨.value, depth⟩
    .block <| .casePresence (.storeAbsent p) <| .ofList
      [.bindFresh x inner.type inner.fresh, inner.decodeCode (.var x), .storePresent p x]
  | synonym _ _ depth inner, p =>
    let x : Local := ⟨.value, depth⟩
    .block <| .ofList
      [.bindFresh x inner.type inner.fresh, inner.decodeCode (.var x), .store p x]
  | member _ _ _ inner, p => inner.decodeCode p

end Field

end Marshal
