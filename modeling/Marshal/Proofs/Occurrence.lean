import Marshal.Proofs.Landing

/-!
# What a type contains

`Schema.Child` relates a shape to the shapes it is put together from, through the declared type if
it refers to one, and `Schema.Occurs` to all shapes inside it.  A declared type may contain itself.
`Schema.Throughout` says that a property holds of all shapes inside a shape, and
`Schema.throughout_of_every` reads that off the text of the shape and of the declarations.

The parts of a value (`Schema.Part`) have shapes that occur in the shape of the value, so what holds
throughout a type holds inside each of its values.
-/

namespace Marshal

namespace Schema

/-- The second shape is a component of the first one, or of the declared type it refers to. -/
inductive Child (Γ : Schema) : Shape → Shape → Prop where
  | delegate {s} : Child Γ (.delegate s) s
  | staged {s} : Child Γ (.staged s) s
  | option {s} : Child Γ (.option s) s
  | array {size s} : Child Γ (.array size s) s
  | seq {s} : Child Γ (.seq s) s
  | key {keys key value} : Child Γ (.map keys key value) key
  | value {keys key value} : Child Γ (.map keys key value) value
  | slot {name slots slot} (hf : Γ.find? name = some (.record slots)) (h : slot ∈ slots) :
      Child Γ (.ref name) slot.shape
  | member {name u m} (hf : Γ.find? name = some (.holder u)) (h : m ∈ u) :
      Child Γ (.ref name) m.shape

/-- The second shape is inside the first one, or is that shape. -/
abbrev Occurs (Γ : Schema) : Shape → Shape → Prop := Relation.ReflTransGen Γ.Child

/-- All shapes inside a shape have the property. -/
def Throughout (Γ : Schema) (p : Shape → Prop) (s : Shape) : Prop := ∀ t, Γ.Occurs s t → p t

variable {Γ : Schema} {p : Shape → Prop} {s t : Shape}

theorem Throughout.self (h : Γ.Throughout p s) : p s := h s .refl

theorem Throughout.child (h : Γ.Throughout p s) (hc : Γ.Child s t) : Γ.Throughout p t :=
  fun u hu => h u (hu.head hc)

theorem Throughout.slot {name : String} {slots : List Slot} {slot : Slot}
    (h : Γ.Throughout p (.ref name)) (hf : Γ.find? name = some (.record slots))
    (hs : slot ∈ slots) : Γ.Throughout p slot.shape :=
  h.child (.slot hf hs)

end Schema

theorem Members.mem_of_member? {u : Members} {tag : Nat} {m : Member}
    (h : u.member? tag = some m) : m ∈ u := by
  cases tag with
  | zero => cases h
  | succ i => exact List.mem_of_getElem? h

namespace Schema

variable {Γ : Schema} {p : Shape → Prop} {s s' : Shape} {v v' : Value}

theorem Throughout.member {name : String} {u : Members} {tag : Nat} {m : Member}
    (h : Γ.Throughout p (.ref name)) (hf : Γ.find? name = some (.holder u))
    (hm : u.member? tag = some m) : Γ.Throughout p m.shape :=
  h.child (.member hf (Members.mem_of_member? hm))

/-- A part of a value has a component of its shape. -/
theorem Part.child (h : Γ.Part (s, v) (s', v')) : Γ.Child s s' := by
  cases h with
  | delegate => exact .delegate
  | staged => exact .staged
  | present => exact .option
  | array _ => exact .array
  | seq _ => exact .seq
  | key _ => exact .key
  | value _ => exact .value
  | slot hf hm _ => exact .slot hf (List.of_mem_zip hm).1
  | held hf hm => exact .member hf (Members.mem_of_member? hm)

/-- What is inside a value has a shape that occurs in its shape. -/
theorem Within.occurs {x y : Shape × Value} (h : Γ.Within x y) : Γ.Occurs x.1 y.1 := by
  induction h with
  | refl => exact .refl
  | tail _ hp ih => exact ih.tail hp.child

end Schema

/-! ### Reading it off the declarations -/

/-- The property holds of a shape and of all shapes that are spelled out in it. -/
def Shape.Every (p : Shape → Prop) : Shape → Prop
  | scalar s cast => p (scalar s cast)
  | converted c w => p (converted c w)
  | delegate s => p (delegate s) ∧ s.Every p
  | ref name => p (ref name)
  | staged s => p (staged s) ∧ s.Every p
  | option s => p (option s) ∧ s.Every p
  | array size s => p (array size s) ∧ s.Every p
  | seq s => p (seq s) ∧ s.Every p
  | map keys key value => p (map keys key value) ∧ key.Every p ∧ value.Every p

/-- The property holds of all shapes that are spelled out in a declaration. -/
def Decl.Every (p : Shape → Prop) : Decl → Prop
  | record slots => ∀ slot ∈ slots, slot.shape.Every p
  | holder u => ∀ m ∈ u, m.shape.Every p

/-- The property holds of all shapes that are spelled out in a schema. -/
def Schema.Every (p : Shape → Prop) (Γ : Schema) : Prop := ∀ d ∈ Γ.decls, d.2.Every p

namespace Schema

variable {Γ : Schema} {p : Shape → Prop} {s t : Shape}

theorem Every.find {name : String} {d : Decl} (h : Γ.Every p) (hf : Γ.find? name = some d) :
    d.Every p := by
  obtain ⟨ds, ds', hds, -⟩ := List.lookup_eq_some_iff.1 hf
  exact h (name, d) (by simp [hds])

theorem Every.child (h : Γ.Every p) (hs : s.Every p) (hc : Γ.Child s t) : t.Every p := by
  cases hc with
  | delegate | staged | option | array | seq => exact hs.2
  | key => exact hs.2.1
  | value => exact hs.2.2
  | slot hf hm => exact h.find hf _ hm
  | member hf hm => exact h.find hf _ hm

/-- What holds of all that is spelled out in a shape and in the declarations holds throughout. -/
theorem throughout_of_every (h : Γ.Every p) (hs : s.Every p) : Γ.Throughout p s := by
  intro t ht
  have hevery : t.Every p := by
    induction ht with
    | refl => exact hs
    | tail _ hc ih => exact h.child ih hc
  cases t with
  | scalar _ _ | converted _ _ | ref _ => exact hevery
  | delegate _ | staged _ | option _ | array _ _ | seq _ | map _ _ _ => exact hevery.1

end Schema

end Marshal
