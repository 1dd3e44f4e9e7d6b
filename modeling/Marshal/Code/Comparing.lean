import Marshal.Code.Basic
import Marshal.Field.Basic

/-!
# Code that compares a field

`Field.equalityCode` emits the statements that return `false` if the values at two places differ.
-/

namespace Marshal

/-- Compares two sequences or arrays, given the code that compares two items. -/
def itemsEqualityCode (depth : Nat) (p q : Place) (inner : Place → Place → Code) : Code :=
  let i : Local := ⟨.i, depth⟩
  .seq (.requireSameLength p q) (.forIndex i p (inner (.item p i) (.item q i)))

/-- Compares the values at two places. -/
def Field.equalityCode : Field → Place → Place → Code
  | leaf info _ wire, p, q =>
    if (encodedWire info.modifiers wire).isSome then .requireSame p q else .requireEqual p q
  | array _ _ depth inner, p, q | sequence _ _ depth inner, p, q =>
    itemsEqualityCode depth p q inner.equalityCode
  | map _ _ depth _ value, p, q =>
    let k : Local := ⟨.k, depth⟩
    let l : Local := ⟨.lhs, depth⟩
    let r : Local := ⟨.rhs, depth⟩
    .seq (.requireSameLength p q)
      (.forEntries k l p
        (.seq (.bindEntry r q k) (value.equalityCode (.deref l) (.deref r))))
  | optional _ _ depth inner, p, q =>
    let l : Local := ⟨.lhs, depth⟩
    let r : Local := ⟨.rhs, depth⟩
    .caseBoth p q l r (inner.equalityCode (.deref l) (.deref r))
  | synonym _ _ depth inner, p, q =>
    let l : Local := ⟨.lhs, depth⟩
    let r : Local := ⟨.rhs, depth⟩
    .block <| .ofList [.bindRef l p, .bindRef r q, inner.equalityCode (.deref l) (.deref r)]
  | member _ _ _ inner, p, q => inner.equalityCode p q

end Marshal
