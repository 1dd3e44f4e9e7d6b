import Marshal.Implementation.Definition
import Marshal.Proofs.Definition
import Marshal.Proofs.Modifiers
import Marshal.Proofs.Nesting
import Marshal.Proofs.TypeGrammar

/-!
# Casts in emitted code

A cast that is asked for a field is meant for every leaf of its tree, the keys of maps included.  It
is given to all nodes by one recursion, checked by another one, and used by the code that writes and
by the code that reads.  Here they are brought together.

`Code.transfers` are the statements of some code that carry the value of a leaf, and
`Code.WritesLeaf` and `Code.ReadsLeaf` say which of them belong to a leaf under a cast.  The code of
a field has one for each leaf, in order (`Field.writes_withModifiers`, `Field.reads_withModifiers`).
`FieldDecl.casts_reach` says the same of fields, aliases and members as they are declared, and when
they are accepted.
-/

namespace Marshal

/-! ### Statements that carry a leaf -/

/-- The statements that write the value of a leaf or read one, in order.  The bytes of a sequence
that is written or read at once count as one leaf. -/
def Code.transfers : Code → List Code
  | encodeNested p => [encodeNested p]
  | write w e => [write w e]
  | writeBytes p => [writeBytes p]
  | decodeNested p => [decodeNested p]
  | readInto w p e => [readInto w p e]
  | readBytesInto p => [readBytesInto p]
  | seq first second => first.transfers ++ second.transfers
  | block body | forIndex _ _ body | forEntries _ _ _ body | times _ body
  | caseBoth _ _ _ _ body => body.transfers
  | caseOption _ _ there absent => there.transfers ++ absent.transfers
  | casePresence absent there => absent.transfers ++ there.transfers
  | skip | bindRef .. | writeLength _ | writePresence _ | readLength _ | checkLength _ | clear _
  | bindFresh .. | push .. | insert .. | storeAbsent _ | storePresent .. | store ..
  | requireSame .. | requireEqual .. | requireSameLength .. | bindEntry .. => []

theorem Code.transfers_lengthCheck (x : Local) (takesBytes : Bool) :
    (lengthCheck x takesBytes).transfers = [] := by cases takesBytes <;> rfl

/-- The statement writes a leaf, given by its type and its wire kind, under a cast.  A leaf under a
cast is written in the wire kind of the cast: a number is cast to a number, and a type with its own
code is converted. -/
inductive Code.WritesLeaf : (cast : Option Wire) → TypeExpr × Option Wire → Code → Prop where
  | own {t v p} (h : v ≠ .text) : WritesLeaf none (t, some v) (.write v (.byValue p))
  | text {t p} : WritesLeaf none (t, some .text) (.write .text (.byReference p))
  | nested {t p} : WritesLeaf none (t, none) (.encodeNested p)
  | bytes {t p} : WritesLeaf none (t, some (.fixed .byte)) (.writeBytes p)
  | number {w t v p} (hw : w.numeric) (hv : v.numeric) :
      WritesLeaf (some w) (t, some v) (.write w (.castTo p w))
  | converted {w t p} (hw : w.numeric) : WritesLeaf (some w) (t, none) (.write w (.converted p))

/-- The statement reads a leaf, given by its type and its wire kind, under a cast. -/
inductive Code.ReadsLeaf : (cast : Option Wire) → TypeExpr × Option Wire → Code → Prop where
  | own {t v p} : ReadsLeaf none (t, some v) (.readInto v p .asIs)
  | nested {t p} : ReadsLeaf none (t, none) (.decodeNested p)
  | bytes {t p} : ReadsLeaf none (t, some (.fixed .byte)) (.readBytesInto p)
  | number {w t v p} (hw : w.numeric) (hv : v.numeric) :
      ReadsLeaf (some w) (t, some v) (.readInto w p (.castTo t))
  | converted {w t p} (hw : w.numeric) : ReadsLeaf (some w) (t, none) (.readInto w p .converted)

/-! ### Code of a field -/

namespace Field

variable {m : Modifiers} {f g : Field}

theorem modifiers_withModifiers (m : Modifiers) (f : Field) :
    (f.withModifiers m).modifiers = m := by cases f <;> rfl

theorem children_withModifiers (m : Modifiers) (f : Field) :
    (f.withModifiers m).children = f.children.map (withModifiers m) := by cases f <;> rfl

theorem leaves_withModifiers (m : Modifiers) (f : Field) :
    (f.withModifiers m).leaves = f.leaves := by
  induction f with
  | leaf => rfl
  | array _ _ _ _ ih | sequence _ _ _ _ ih | optional _ _ _ _ ih | synonym _ _ _ _ ih
  | member _ _ _ _ ih => exact ih
  | map _ _ _ _ _ ihkey ihvalue => exact congrArg₂ _ ihkey ihvalue

/-- All nodes of the tree have the modifiers. -/
theorem modifiers_of_contains (h : (f.withModifiers m).Contains g) : g.modifiers = m := by
  -- on the way down every node is some node of `f` that was given the modifiers
  have hg : ∃ g', g = withModifiers m g' := by
    induction h with
    | refl => exact ⟨f, rfl⟩
    | tail _ hchild ih =>
      obtain ⟨g', rfl⟩ := ih
      rw [children_withModifiers] at hchild
      obtain ⟨g'', -, rfl⟩ := List.mem_map.1 hchild
      exact ⟨g'', rfl⟩
  obtain ⟨g', rfl⟩ := hg
  exact modifiers_withModifiers m g'

theorem eq_leaf_of_isRawByte (h : (f.withModifiers m).isRawByte = true) :
    m.cast = none ∧ ∃ info t, f = .leaf info t (some (.fixed .byte)) := by
  cases f with
  | leaf info t wire =>
    simp only [withModifiers, isRawByte, Bool.and_eq_true, beq_iff_eq] at h
    obtain ⟨rfl, hcast⟩ := h
    exact ⟨hcast, info, t, rfl⟩
  | _ => cases h

theorem Admits.of_subset {cast : Option Wire} (h : f.Admits cast) (hg : g.leaves ⊆ f.leaves) :
    g.Admits cast := h.imp_right fun hall t w hmem => hall t w (hg hmem)

theorem writes_withModifiers (hw : ∀ w, m.cast = some w → w.numeric = true)
    (hf : f.Admits m.cast) (p : Place) :
    List.Forall₂ (Code.WritesLeaf m.cast) f.leaves
      ((f.withModifiers m).encodeCode p).transfers := by
  induction f generalizing p with
  | leaf info t wire =>
    obtain ⟨_ | w, offWire, uncompared⟩ := m
    · rcases wire with _ | v
      · exact .cons .nested .nil
      · cases v with
        | text => exact .cons .text .nil
        | fixed | var | float | bool => exact .cons (.own (by simp)) .nil
    · rcases wire with _ | v
      · exact .cons (.converted (hw w rfl)) .nil
      · have hv : v.numeric = true := hf.resolve_left (by simp) t v List.mem_cons_self
        exact .cons (.number (hw w rfl) hv) .nil
  | array _ _ depth inner ih => exact ih hf _
  | sequence _ _ depth inner ih =>
    rw [withModifiers, encodeCode]
    split_ifs with hraw
    · -- bytes are only written at once if there is no cast
      obtain ⟨hcast, info, t, rfl⟩ := eq_leaf_of_isRawByte hraw
      rw [hcast]
      exact .cons .bytes .nil
    · exact ih hf _
  | map _ _ depth key value ihkey ihvalue =>
    exact List.rel_append (ihkey (hf.of_subset (List.subset_append_left ..)) _)
      (ihvalue (hf.of_subset (List.subset_append_right ..)) _)
  | optional _ _ depth inner ih =>
    show List.Forall₂ _ _ ((_ ++ _) ++ [])
    rw [List.append_nil]
    exact ih hf _
  | synonym _ _ depth inner ih => exact ih hf _
  | member _ _ _ inner ih => exact ih hf p

theorem reads_withModifiers (hw : ∀ w, m.cast = some w → w.numeric = true)
    (hf : f.Admits m.cast) (p : Place) :
    List.Forall₂ (Code.ReadsLeaf m.cast) f.leaves
      ((f.withModifiers m).decodeCode p).transfers := by
  induction f generalizing p with
  | leaf info t wire =>
    obtain ⟨_ | w, offWire, uncompared⟩ := m
    · rcases wire with _ | v
      · exact .cons .nested .nil
      · exact .cons .own .nil
    · rcases wire with _ | v
      · exact .cons (.converted (hw w rfl)) .nil
      · have hv : v.numeric = true := hf.resolve_left (by simp) t v List.mem_cons_self
        exact .cons (.number (hw w rfl) hv) .nil
  | array _ _ depth inner ih => exact ih hf _
  | sequence _ _ depth inner ih =>
    rw [withModifiers, decodeCode]
    split_ifs with hraw
    · obtain ⟨hcast, info, t, rfl⟩ := eq_leaf_of_isRawByte hraw
      rw [hcast]
      exact .cons .bytes .nil
    · simp only [Code.transfers, Code.ofList, Code.transfers_lengthCheck, List.nil_append,
        List.append_nil]
      exact ih hf _
  | map _ _ depth key value ihkey ihvalue =>
    simp only [withModifiers, decodeCode, Code.transfers, Code.ofList, Code.transfers_lengthCheck,
      List.nil_append, List.append_nil]
    exact List.rel_append (ihkey (hf.of_subset (List.subset_append_left ..)) _)
      (ihvalue (hf.of_subset (List.subset_append_right ..)) _)
  | optional _ _ depth inner ih | synonym _ _ depth inner ih =>
    simp only [withModifiers, decodeCode, Code.transfers, Code.ofList, List.nil_append,
      List.append_nil]
    exact ih hf _
  | member _ _ _ inner ih => exact ih hf p

end Field

/-! ### Declared fields -/

theorem Wire.numeric_iff {w : Wire} : w.numeric = true ↔ w ≠ .bool ∧ w ≠ .text := by
  cases w <;> simp [numeric, scalar, Scalar.numeric]

/-- The cast of a field is to a number. -/
theorem Modifiers.numeric_of_read {attributes : List Attribute} {m : Modifiers}
    (h : Modifiers.read attributes = .ok m) {w : Wire} (hw : m.cast = some w) :
    w.numeric = true := by
  obtain ⟨-, hlegible, hask⟩ := read_eq_ok_iff.1 h
  obtain ⟨name, hname, hof⟩ := (hask.cast w).1 hw
  obtain ⟨w', hw', hnumeric⟩ := Wire.exists_of_mem_castNames (hlegible.cast name hname)
  cases hof.symm.trans hw'
  exact hnumeric

/-- A type has the same leaves however deep it stands. -/
theorem LaidOut.exists_at {t : TypeExpr} {n : Nat} {f : Field} (h : LaidOut t n f) (n' : Nat) :
    ∃ f', LaidOut t n' f' ∧ f'.leaves = f.leaves := by
  induction h generalizing n' with
  | paren _ ih =>
    obtain ⟨f', hf', hleaves⟩ := ih n'
    exact ⟨f', .paren hf', hleaves⟩
  | hidden _ ih =>
    obtain ⟨f', hf', hleaves⟩ := ih n'
    exact ⟨f', .hidden hf', hleaves⟩
  | array _ ih =>
    obtain ⟨f', hf', hleaves⟩ := ih (n' + 1)
    exact ⟨_, .array hf', hleaves⟩
  | sequence hs hi ht _ ih =>
    obtain ⟨f', hf', hleaves⟩ := ih (n' + 1)
    exact ⟨_, .sequence hs hi ht hf', hleaves⟩
  | optional hs hi ht _ ih =>
    obtain ⟨f', hf', hleaves⟩ := ih (n' + 1)
    exact ⟨_, .optional hs hi ht hf', hleaves⟩
  | map hs hform ht _ _ ihk ihv =>
    obtain ⟨fk, hfk, hleavesk⟩ := ihk (n' + 1)
    obtain ⟨fv, hfv, hleavesv⟩ := ihv (n' + 1)
    exact ⟨_, .map hs hform ht hfk hfv, congrArg₂ _ hleavesk hleavesv⟩
  | scalar hs hw => exact ⟨_, .scalar hs hw, rfl⟩
  | delegate hs hform hw => exact ⟨_, .delegate hs hform hw, rfl⟩

/-- The field has the leaves, all its nodes have the modifiers, and its code writes and reads each
leaf under the cast. -/
structure Field.Carries (f : Field) (m : Modifiers) (leaves : List (TypeExpr × Option Wire)) :
    Prop where
  leaves_eq : f.leaves = leaves
  modifiers : ∀ g, f.Contains g → g.modifiers = m
  encode : ∀ p, List.Forall₂ (Code.WritesLeaf m.cast) leaves (f.encodeCode p).transfers
  decode : ∀ p, List.Forall₂ (Code.ReadsLeaf m.cast) leaves (f.decodeCode p).transfers

/-- A field is built for the leaves just if there is no cast or none of them is a truth value or a
text, and it carries the modifiers to all of them. -/
structure CastReaches (m : Modifiers) (leaves : List (TypeExpr × Option Wire))
    (outcome : Except BuildError Field) : Prop where
  accepted_iff : (∃ f, outcome = .ok f) ↔
    m.cast = none ∨ ∀ x ∈ leaves, x.2 ≠ some .bool ∧ x.2 ≠ some .text
  carries : ∀ f, outcome = .ok f → f.Carries m leaves

theorem Field.admits_iff_leaves {f : Field} {cast : Option Wire} :
    f.Admits cast ↔ cast = none ∨ ∀ x ∈ f.leaves, x.2 ≠ some .bool ∧ x.2 ≠ some .text := by
  refine or_congr Iff.rfl ⟨?_, ?_⟩
  · rintro h ⟨t, wire⟩ hmem
    have hnumeric (w : Wire) (hw : wire = some w) := Wire.numeric_iff.1 (h t w (hw ▸ hmem))
    exact ⟨fun hbool => (hnumeric _ hbool).1 rfl, fun htext => (hnumeric _ htext).2 rfl⟩
  · intro h t w hmem
    have hw := h _ hmem
    exact Wire.numeric_iff.2 ⟨fun hbool => hw.1 (congrArg some hbool),
      fun htext => hw.2 (congrArg some htext)⟩

section Outcomes

variable {d : FieldDecl} {m : Modifiers} {g g' : Field} {outcome : Except BuildError Field}

theorem castReaches_of_iff (hm : Modifiers.read d.attributes = .ok m)
    (hleaves : g'.leaves = g.leaves)
    (h : ∀ f, outcome = .ok f ↔ g.Admits m.cast ∧ f = g'.withModifiers m) :
    CastReaches m g.leaves outcome where
  accepted_iff := by
    rw [← Field.admits_iff_leaves]
    simp [h]
  carries f hf := by
    obtain ⟨hadmits, rfl⟩ := (h f).1 hf
    have hadmits' : g'.Admits m.cast := by rwa [Field.Admits, hleaves]
    have hnumeric (w : Wire) (hw : m.cast = some w) := Modifiers.numeric_of_read hm hw
    refine ⟨(Field.leaves_withModifiers m g').trans hleaves, fun _ => Field.modifiers_of_contains,
      fun p => ?_, fun p => ?_⟩
    · rw [← hleaves]
      exact Field.writes_withModifiers hnumeric hadmits' p
    · rw [← hleaves]
      exact Field.reads_withModifiers hnumeric hadmits' p

theorem castReaches_finish (hm : Modifiers.read d.attributes = .ok m) (name : String) (g : Field) :
    CastReaches m g.leaves (g.finish name d.attributes) :=
  castReaches_of_iff hm (Field.leaves_withName name g) fun _ => Field.finish_eq_ok_iff hm

theorem Field.build_eq_finish {depth : Nat} (hg : Field.ofType d.type depth = .ok g)
    (name : String) : Field.build name d depth = g.finish name d.attributes := by rw [build, hg]

theorem FieldDecl.aliasPart_field (hg : Field.ofType d.type 1 = .ok g) (ident : String) :
    (d.aliasPart ident).result.map Part.field =
      (Field.synonym {} ident 0 g).finish "self" d.attributes := by
  simp only [FieldDecl.aliasPart, hg]
  cases (Field.synonym {} ident 0 g).finish "self" d.attributes <;> rfl

end Outcomes

/-- All that is looked at before the type and the cast of a variant is as it should be, after the
members in `before`, and no such member has the type of the variant. -/
structure Variant.InOrder (v : Variant) (before : List Part) (tag : Nat) (d : FieldDecl)
    (m : Modifiers) : Prop where
  unnumbered : v.numbered = false
  fields : v.fields = .tuple [d]
  room : tag ≤ 255
  kept : m.skips = false
  new : ∀ q ∈ before, q.field.typeText ≠ d.type.bare.text

namespace Variant.InOrder

variable {v : Variant} {before : List Part} {tag : Nat} {d : FieldDecl} {m : Modifiers} {g : Field}
  {p : Part}

theorem member_eq_ok_iff (h : v.InOrder before tag d m)
    (hm : Modifiers.read d.attributes = .ok m) (hg : Field.ofType d.type 1 = .ok g)
    {union : String} :
    v.member union before tag = .ok p ↔
      g.Admits m.cast ∧ p = ⟨.name v.name, Field.withModifiers m
        (.member ⟨union ++ "::" ++ v.name, {}⟩ tag 0 (g.withName (union ++ "::" ++ v.name)))⟩ := by
  have hcontent := content?_of_fields h.fields
  constructor
  · intro hp
    obtain ⟨-, d', f, hd', hf, rfl⟩ := Variant.member_eq_ok hp
    cases hcontent.symm.trans hd'
    obtain ⟨g', hg', hadmits, rfl⟩ := (Field.build_eq_ok_iff hm).1 hf
    cases hg.symm.trans hg'
    exact ⟨hadmits, by rw [Field.info_built]; rfl⟩
  · rintro ⟨hadmits, rfl⟩
    have hwraps : v.Wraps d m g := ⟨h.unnumbered, h.fields, hm, h.kept, hg, hadmits⟩
    have hroom : ¬255 < tag := Nat.not_lt_of_le h.room
    have hnew : (before.any fun q => q.field.typeText == d.type.bare.text) = false := by
      simpa using h.new
    simp only [Variant.member, h.unnumbered, hcontent, hroom, hm, h.kept,
      Field.build_of_admits hg hm hadmits, hwraps.typeText, hnew, Field.info_built,
      Bool.false_eq_true, ↓reduceIte]
    rfl

theorem castReaches (h : v.InOrder before tag d m) (hm : Modifiers.read d.attributes = .ok m)
    (hg : Field.ofType d.type 1 = .ok g) (union : String) :
    CastReaches m g.leaves ((v.member union before tag).map Part.field) := by
  have hleaves : (Field.member ⟨union ++ "::" ++ v.name, {}⟩ tag 0
      (g.withName (union ++ "::" ++ v.name))).leaves = g.leaves := Field.leaves_withName _ g
  refine castReaches_of_iff hm hleaves fun f => ⟨fun hf => ?_, ?_⟩
  · rcases hp : v.member union before tag with e | p
    · rw [hp] at hf
      cases hf
    · obtain ⟨hadmits, rfl⟩ := (h.member_eq_ok_iff hm hg).1 hp
      rw [hp] at hf
      cases hf
      exact ⟨hadmits, rfl⟩
  · rintro ⟨hadmits, rfl⟩
    rw [(h.member_eq_ok_iff hm hg).2 ⟨hadmits, rfl⟩]
    rfl

theorem member_code (h : v.InOrder before tag d m) (hm : Modifiers.read d.attributes = .ok m)
    (hg : Field.ofType d.type 1 = .ok g) {union : String}
    (hp : v.member union before tag = .ok p) :
    ∃ e, p.member? = some e ∧
      List.Forall₂ (Code.WritesLeaf m.cast) g.leaves e.encodeCode.transfers ∧
      List.Forall₂ (Code.ReadsLeaf m.cast) g.leaves e.decodeCode.transfers := by
  have hcarries := (h.castReaches hm hg union).carries p.field (by rw [hp]; rfl)
  obtain ⟨-, rfl⟩ := (h.member_eq_ok_iff hm hg).1 hp
  exact ⟨_, rfl, hcarries.encode _, hcarries.decode _⟩

end Variant.InOrder

/-- **Casts reach every leaf.**  Let the attributes of a field be readable and its type have
a field tree.  Then a field of a record, an alias and a member of a union are each accepted just if
there is no cast or no leaf of the tree is a truth value or a text.  All nodes then have the
modifiers that the attributes ask for, and the emitted code has one statement for each leaf to write
it and one to read it.  Under a cast these use the wire kind of the cast: numbers are cast between
numeric types, and what has its own code is converted. -/
theorem FieldDecl.casts_reach {d : FieldDecl} {m : Modifiers} {depth : Nat} {g : Field}
    (hm : Modifiers.read d.attributes = .ok m) (hg : Field.ofType d.type depth = .ok g) :
    (∀ name, CastReaches m g.leaves (Field.build name d depth)) ∧
    (∀ ident, CastReaches m g.leaves ((d.aliasPart ident).result.map Part.field)) ∧
    ∀ (v : Variant) (before : List Part) (tag : Nat), v.InOrder before tag d m → ∀ union,
      CastReaches m g.leaves ((v.member union before tag).map Part.field) ∧
      ∀ p, v.member union before tag = .ok p → ∃ e, p.member? = some e ∧
        List.Forall₂ (Code.WritesLeaf m.cast) g.leaves e.encodeCode.transfers ∧
        List.Forall₂ (Code.ReadsLeaf m.cast) g.leaves e.decodeCode.transfers := by
  -- aliases and members are built one container deeper, where the leaves are the same
  obtain ⟨g', hg', hleaves⟩ := (Field.ofType_eq_ok_iff.1 hg).exists_at 1
  rw [← Field.ofType_eq_ok_iff] at hg'
  refine ⟨fun name => ?_, fun ident => ?_, fun v before tag hv union => ?_⟩
  · rw [Field.build_eq_finish hg]
    exact castReaches_finish hm name g
  · rw [FieldDecl.aliasPart_field hg', ← hleaves]
    exact castReaches_finish hm "self" (.synonym {} ident 0 g')
  · rw [← hleaves]
    exact ⟨hv.castReaches hm hg' union, fun p => hv.member_code hm hg'⟩

/-- Lists of ranks by their numbers, all written as 32 bits. -/
def FieldDecl.ranks : FieldDecl where
  type := .apply "BTreeMap" [.named "u16", .apply "Option" [.array (.named "Rank") "4"]]
  attributes := [⟨"cod", .entries [.keyed "cast" (.string "fixed_u32")]⟩]

theorem FieldDecl.casts_reach_ranks :
    let m : Modifiers := { cast := some (.fixed ⟨false, .w32⟩) }
    let leaves := [(.named "u16", some (.var ⟨false, .w16⟩)), (.named "Rank", none)]
    let v : Variant := { name := "Ranks", fields := .tuple [ranks] }
    Modifiers.read ranks.attributes = .ok m ∧ v.InOrder [] 1 ranks m ∧
      CastReaches m leaves (Field.build "self.ranks" ranks 0) ∧
      CastReaches m leaves ((ranks.aliasPart "Ranks").result.map Part.field) ∧
      CastReaches m leaves ((v.member "TableDef" [] 1).map Part.field) := by
  intro m leaves v
  have hm : Modifiers.read ranks.attributes = .ok m := rfl
  have hv : v.InOrder [] 1 ranks m := ⟨rfl, rfl, by decide, rfl, List.forall_mem_nil _⟩
  obtain ⟨hfield, halias, hmember⟩ :=
    casts_reach hm (show Field.ofType ranks.type 0 = .ok _ from rfl)
  exact ⟨hm, hv, hfield "self.ranks", halias "Ranks", (hmember v [] 1 hv "TableDef").1⟩

end Marshal
