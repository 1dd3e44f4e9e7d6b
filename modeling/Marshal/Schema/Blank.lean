import Marshal.Shape

/-!
# Blank values

Every shape has a blank value: zeros, empty texts, sequences and maps, absent optional values and
empty holders.  A declared type may also have a blank value of its own (`Schema.defaults`).
Decoding starts from the blank value wherever a value is read afresh.
-/

namespace Marshal

/-- The blank value of a shape, given those of the declared types. -/
def Shape.blank (named : String → Value) : Shape → Value
  | scalar s _ => .datum s.blank
  | converted c _ => .datum c.carrier.blank
  | delegate s | staged s => s.blank named
  | ref name => named name
  | option _ => .absent
  | array size s => .items (List.replicate size (s.blank named))
  | seq _ => .items []
  | map _ _ _ => .entries []

/-- The blank value of a declared type: blank slots, or an empty holder. -/
def Decl.blank (named : String → Value) : Decl → Value
  | record slots => .record (slots.map fun slot => slot.shape.blank named)
  | holder _ => .absent

namespace Schema

/-- The blank value of a name: its own, or that of its declaration, where references are followed
at most `depth` deep. -/
def blankNamed (Γ : Schema) (depth : Nat) (name : String) : Value :=
  match Γ.defaults.lookup name, depth with
  | some v, _ => v
  | none, 0 => .absent
  | none, depth + 1 =>
    match Γ.find? name with
    | none => .absent
    | some d => d.blank (Γ.blankNamed depth)

/-- The blank value of a shape.  A record that holds itself does so behind an optional value, a
sequence, a map or a holder, all of them blank without their contents, so no chain of references
is longer than the schema. -/
def blank (Γ : Schema) (s : Shape) : Value := s.blank (Γ.blankNamed Γ.decls.length)

end Schema

end Marshal
