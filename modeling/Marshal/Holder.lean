import Marshal.Shape

/-!
# Union holders

A holder is empty or holds one member of a union.  Its value is an optional member, and its tag is
the tag of the member, or `0` if it is empty.
-/

namespace Marshal

/-- The tag of a member. -/
def Value.memberTag : Value → Nat
  | .member tag _ => tag
  | _ => 0

namespace Holder

/-- An empty holder. -/
def empty : Value := .absent

/-- A holder of a member. -/
def new (m : Value) : Value := .present m

/-- Puts a member into a holder, in place of what it held. -/
def set (_ : Value) (m : Value) : Value := new m

/-- The member in a holder. -/
def get? : Value → Option Value
  | .present m => some m
  | _ => none

/-- The tag of the member in a holder, and `0` if it is empty. -/
def tag (h : Value) : Nat :=
  match get? h with
  | some m => m.memberTag
  | none => 0

end Holder

end Marshal
