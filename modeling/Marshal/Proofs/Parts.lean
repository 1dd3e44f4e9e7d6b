import Marshal.Proofs.Members

/-!
# Parts and their declarations

An accepted item has one part for each field that it declares, those in its variants included, and
the part is built from that field alone.  `FieldDecl.Builds` says in which ways, and
`Item.builtFrom_modelAs` that this holds of all parts of an item.  What is to be known of the parts
of a model can be read off there.
-/

namespace Marshal

theorem Field.finish_eq_ok {name : String} {attributes : List Attribute} {f f' : Field}
    (h : f.finish name attributes = .ok f') :
    ∃ m, Modifiers.read attributes = .ok m ∧ f' = (f.withName name).withModifiers m := by
  unfold finish at h
  split at h
  · cases h
  · rename_i m hm
    dsimp only at h
    split at h
    · cases h
    · cases h
      exact ⟨m, hm, rfl⟩

theorem Field.build_eq_ok {name : String} {d : FieldDecl} {depth : Nat} {f' : Field}
    (h : Field.build name d depth = .ok f') :
    ∃ f, Field.ofType d.type depth = .ok f ∧ f.finish name d.attributes = .ok f' := by
  unfold build at h
  split at h
  · cases h
  · rename_i f hf
    exact ⟨f, hf, h⟩

/-- The fields that an item declares, those of its variants included. -/
def Item.fieldDecls (item : Item) : List FieldDecl :=
  match item.body with
  | .record fields | .untagged fields => fields.toList
  | .enumeration variants => variants.flatMap fun v => v.fields.toList

namespace FieldDecl

/-- The field is built from the declaration: as a field of a record or a holder, as the content of
an alias, or as what a member of a union wraps. -/
inductive Builds (d : FieldDecl) : Field → Prop where
  | field {name f} (h : Field.build name d 0 = .ok f) : Builds d f
  | synonym {ident inner f} (hinner : Field.ofType d.type 1 = .ok inner)
      (h : (Field.synonym {} ident 0 inner).finish "self" d.attributes = .ok f) : Builds d f
  | member {name f} (tag : Nat) (h : Field.build name d 1 = .ok f) :
      Builds d (.member f.info tag 0 f)

/-- The label of a field: its name or, if fields are not named, its position. -/
def label (d : FieldDecl) (i : Nat) : Label := (d.name.map Label.name).getD (.index i)

theorem part_eq_ok_iff {d : FieldDecl} {i : Nat} {p : Part} :
    (d.part i).result = .ok p ↔
      ∃ f, Field.build ("self." ++ (d.label i).text) d 0 = .ok f ∧ p = ⟨d.label i, f⟩ := by
  constructor
  · intro h
    obtain ⟨f, hf, h⟩ := Traced.bind_eq_ok.1 h
    obtain ⟨_, -, h⟩ := Traced.bind_eq_ok.1 h
    cases h
    exact ⟨f, hf, rfl⟩
  · rintro ⟨f, hf, rfl⟩
    exact Traced.bind_eq_ok.2 ⟨f, hf, rfl⟩

theorem builds_of_part {d : FieldDecl} {i : Nat} {p : Part} (h : (d.part i).result = .ok p) :
    d.Builds p.field := by
  obtain ⟨f, hf, rfl⟩ := part_eq_ok_iff.1 h
  exact .field hf

theorem builds_of_aliasPart {d : FieldDecl} {ident : String} {p : Part}
    (h : (d.aliasPart ident).result = .ok p) : d.Builds p.field := by
  obtain ⟨f, hf, h⟩ := Traced.bind_eq_ok.1 h
  obtain ⟨_, -, h⟩ := Traced.bind_eq_ok.1 h
  cases h
  simp only [Traced.ofExcept] at hf
  split at hf
  · cases hf
  · rename_i inner hinner
    exact .synonym hinner hf

end FieldDecl

/-- Each part is built from the declaration at its position. -/
abbrev BuiltFrom (ds : List FieldDecl) (ps : List Part) : Prop :=
  List.Forall₂ (fun d p => d.Builds p.field) ds ps

theorem builtFrom_recordParts {i : Nat} {ds : List FieldDecl} {ps : List Part}
    (h : (recordParts i ds).result = .ok ps) : BuiltFrom ds ps := by
  induction ds generalizing i ps with
  | nil =>
    cases h
    exact .nil
  | cons d ds ih =>
    obtain ⟨p, hp, h⟩ := Traced.bind_eq_ok.1 h
    obtain ⟨qs, hqs, h⟩ := Traced.bind_eq_ok.1 h
    cases h
    exact .cons (FieldDecl.builds_of_part hp) (ih hqs)

theorem builtFrom_recordModel {name : String} {fields : FieldList} {m : Model}
    (h : (recordModel name fields).result = .ok m) : BuiltFrom fields.toList m.parts := by
  obtain ⟨ps, hps, h⟩ := Traced.bind_eq_ok.1 h
  cases h
  split at hps
  · obtain ⟨p, hp, hps⟩ := Traced.bind_eq_ok.1 hps
    cases hps
    exact .cons (FieldDecl.builds_of_aliasPart hp) .nil
  · exact builtFrom_recordParts hps

theorem builtFrom_holderModel {name : String} {definition : Path} {ds : List FieldDecl} {m : Model}
    (h : (holderModel name definition ds).result = .ok m) : BuiltFrom ds m.parts := by
  unfold holderModel at h
  split at h
  · obtain ⟨o, -, h⟩ := Traced.bind_eq_ok.1 h
    split_ifs at h
    · obtain ⟨p, hp, h⟩ := Traced.bind_eq_ok.1 h
      split_ifs at h
      · cases h
        exact .cons (FieldDecl.builds_of_part hp) .nil
      · cases h
    · cases h
  · cases h

theorem Variant.toList_of_content {v : Variant} {d : FieldDecl} (h : v.content? = some d) :
    v.fields.toList = [d] := by
  unfold Variant.content? at h
  split at h
  · rename_i hfields
    cases h
    rw [hfields]
    rfl
  · cases h

theorem builtFrom_memberParts {union : String} {before ps : List Part} {tag : Nat}
    {vs : List Variant} (h : (memberParts union before tag vs).result = .ok ps) :
    ∃ qs, ps = before ++ qs ∧ BuiltFrom (vs.flatMap fun v => v.fields.toList) qs := by
  induction vs generalizing before tag with
  | nil =>
    cases h
    exact ⟨[], (List.append_nil _).symm, .nil⟩
  | cons v vs ih =>
    obtain ⟨p, hp, h⟩ := Traced.bind_eq_ok.1 h
    obtain ⟨_, -, h⟩ := Traced.bind_eq_ok.1 h
    obtain ⟨-, d, f, hd, hf, rfl⟩ := Variant.member_eq_ok hp
    obtain ⟨qs, rfl, hqs⟩ := ih h
    refine ⟨_ :: qs, (List.append_cons before _ qs).symm, ?_⟩
    rw [List.flatMap_cons, Variant.toList_of_content hd]
    exact .cons (.member tag hf) hqs

/-- The parts of an accepted item are built from the fields that it declares, one from each. -/
theorem Item.builtFrom_modelAs {item : Item} {role : Role} {m : Model}
    (h : (item.modelAs role).result = .ok m) : BuiltFrom item.fieldDecls m.parts := by
  obtain ⟨name, attributes, generics, body⟩ := item
  simp only [Item.modelAs] at h
  split_ifs at h
  · split at h
    · cases h
    · exact builtFrom_holderModel h
    · exact builtFrom_recordModel h
    · exact builtFrom_recordModel h
    · obtain ⟨ps, hps, h⟩ := Traced.bind_eq_ok.1 h
      cases h
      obtain ⟨qs, rfl, hqs⟩ := builtFrom_memberParts hps
      exact hqs
    · cases h
    · cases h
  · cases h

end Marshal
