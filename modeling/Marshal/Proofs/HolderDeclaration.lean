import Marshal.Proofs.Definition
import Marshal.Proofs.TypeGrammar

/-!
# Which union holders are accepted

A holder declares one field, an optional value of a union.  The field tree of that field is built
like any other, and only then compared with the definition that the holder names.  What is accepted
thus depends on how types become field trees (`LaidOut`): brackets around a type do not matter, nor
does what stands before the last segment of a path, while a name with arguments or the name of a
scalar is never that of a definition.

`TypeExpr.OptionOf` says the same of the declared type alone.  `Item.modelAs_holder_exactly` says
that the fields that a holder may declare are those of such a type, one and without modifiers, and
what the model is then.
-/

namespace Marshal

/-! ### Names at the end of a path -/

/-- The type is a path that ends in a segment. -/
inductive TypeExpr.EndsIn : TypeExpr → Segment → Prop where
  | path {leading ss s} (h : ss.getLast? = some s) : EndsIn (.path leading ss) s

theorem plainName?_eq_some_iff {ss : List Segment} {ident : String} :
    plainName? ss = some ident ↔ ss.getLast? = some (.plain ident) := by
  fun_induction plainName? ss with
  | case1 => simp
  | case2 => simp
  | case3 => simp
  | case4 => simp
  | case5 _ s ss ih => rw [ih, List.getLast?_cons_cons]

theorem endsAlike_iff {t : TypeExpr} {p : Path} :
    endsAlike t p = true ↔
      ∃ ident, t.EndsIn (.plain ident) ∧ p.segments.getLast? = some (.plain ident) := by
  constructor
  · intro h
    unfold endsAlike at h
    split at h
    · split at h
      · rename_i a b ha hb
        obtain rfl := eq_of_beq h
        exact ⟨a, .path (plainName?_eq_some_iff.1 ha), plainName?_eq_some_iff.1 hb⟩
      · cases h
    · cases h
  · rintro ⟨ident, ⟨ht⟩, hp⟩
    simp [endsAlike, plainName?_eq_some_iff.2 ht, plainName?_eq_some_iff.2 hp]

/-! ### Optional values of a definition -/

/-- Inside its brackets the type is a path that ends in `Option`, with `content` as the only type
among the arguments.  Inside its own brackets `content` is a path that ends in the same name as the
definition.  Neither has arguments there, and the name is not that of a scalar. -/
inductive TypeExpr.OptionOf (definition : Path) (t content : TypeExpr) : Prop where
  | intro {s : Segment} {ident : String} (ends : t.bare.EndsIn s) (option : s.ident = "Option")
      (single : s.types = [content]) (inner : content.bare.EndsIn (.plain ident))
      (same : definition.segments.getLast? = some (.plain ident))
      (own : ∀ w, (ident, w) ∉ Wire.ownKinds)

namespace LaidOut

variable {t : TypeExpr} {n : Nat} {f : Field}

theorem bare_iff : LaidOut t.bare n f ↔ LaidOut t n f := by
  fun_induction TypeExpr.bare t with
  | case1 t ih =>
    rw [ih]
    refine ⟨.paren, fun h => ?_⟩
    cases h with
    | paren h => exact h
  | case2 t ih =>
    rw [ih]
    refine ⟨.hidden, fun h => ?_⟩
    cases h with
    | hidden h => exact h
  | case3 => rfl

/-- A name alone that is not the name of a scalar is that of a type with its own code. -/
theorem delegate_of_endsIn {ident : String} (h : t.EndsIn (.plain ident))
    (hw : ∀ w, (ident, w) ∉ Wire.ownKinds) (n : Nat) : LaidOut t n (.leaf {} t none) := by
  obtain ⟨hs⟩ := h
  refine .delegate hs (Segment.form_plain_notMem ident) ?_
  rintro _ w ⟨⟩
  exact hw w

theorem of_optionOf {definition : Path} {content : TypeExpr} (h : t.OptionOf definition content)
    (n : Nat) : LaidOut t n (.optional {} t.bare n (.leaf {} content.bare none)) := by
  obtain ⟨hs, hi, ht, hc, -, hw⟩ := h
  refine bare_iff.1 ?_
  generalize t.bare = u at hs
  obtain ⟨hs⟩ := hs
  exact .optional hs hi ht (bare_iff.1 (delegate_of_endsIn hc hw (n + 1)))

/-- Inversion of the case of a type with its own code. -/
theorem of_delegate {info : NodeInfo} {u : TypeExpr} (h : LaidOut t n (.leaf info u none)) :
    info = {} ∧ u = t.bare ∧ ∀ ident w, u.EndsIn (.plain ident) → (ident, w) ∉ Wire.ownKinds := by
  generalize hf : Field.leaf info u none = f at h
  induction h with
  | paren _ ih | hidden _ ih =>
    rw [TypeExpr.bare]
    exact ih hf
  | @delegate _ _ s _ hs hform hw =>
    cases hf
    refine ⟨rfl, rfl, ?_⟩
    rintro ident w ⟨hplain⟩
    exact hw ident w (Option.some.inj (hs.symm.trans hplain))
  | _ => cases hf

theorem optionOf_of_holds {definition : Path} (h : LaidOut t n f)
    (hf : f.holds definition = true) :
    ∃ content, t.OptionOf definition content ∧
      f = .optional {} t.bare n (.leaf {} content.bare none) := by
  induction h with
  | paren _ ih | hidden _ ih =>
    obtain ⟨content, ⟨hs, hi, ht, hc, hd, hw⟩, rfl⟩ := ih hf
    exact ⟨content, ⟨by rwa [TypeExpr.bare], hi, ht, hc, hd, hw⟩, by rw [TypeExpr.bare]⟩
  | @optional leading ss s content n f hs hi ht h _ =>
    unfold Field.holds at hf
    split at hf
    · rename_i hleaf
      cases hleaf
      obtain ⟨rfl, rfl, hw⟩ := h.of_delegate
      obtain ⟨ident, hc, hd⟩ := endsAlike_iff.1 hf
      exact ⟨content, ⟨.path hs, hi, ht, hc, hd, fun w => hw ident w hc⟩, rfl⟩
    · cases hf
  | _ => cases hf

end LaidOut

/-! ### Models of holders -/

namespace Field

/-- The field tree of what a holder holds, reported under a name. -/
def held (name : String) (t content : TypeExpr) : Field :=
  .optional ⟨name, {}⟩ t.bare 0 (.leaf ⟨"*" ++ name, {}⟩ content.bare none)

theorem holds_built (f : Field) (definition : Path) (name : String) (m : Modifiers) :
    ((f.withName name).withModifiers m).holds definition = f.holds definition := by
  cases f with
  | optional _ _ _ inner =>
    cases inner with
    | leaf _ _ wire => cases wire <;> rfl
    | _ => rfl
  | _ => rfl

theorem holds_of_optionOf {definition : Path} {t content : TypeExpr}
    (h : t.OptionOf definition content) (name : String) :
    (held name t content).holds definition = true := by
  obtain ⟨-, -, -, hc, hd, -⟩ := h
  exact endsAlike_iff.2 ⟨_, hc, hd⟩

/-- A field without modifiers holds a value of the definition just if it is declared as an optional
one. -/
theorem build_holds_iff {d : FieldDecl} (hm : Modifiers.read d.attributes = .ok {})
    {definition : Path} {name : String} {f : Field} :
    Field.build name d 0 = .ok f ∧ f.holds definition = true ↔
      ∃ content, d.type.OptionOf definition content ∧ f = held name d.type content := by
  rw [build_eq_ok_iff hm]
  constructor
  · rintro ⟨⟨g, hg, -, rfl⟩, hf⟩
    rw [holds_built] at hf
    obtain ⟨content, hcontent, rfl⟩ := (ofType_eq_ok_iff.1 hg).optionOf_of_holds hf
    exact ⟨content, hcontent, rfl⟩
  · rintro ⟨content, hcontent, rfl⟩
    have hg := (LaidOut.of_optionOf hcontent 0).ofType_eq
    exact ⟨⟨_, hg, .inl rfl, rfl⟩, holds_of_optionOf hcontent name⟩

end Field

theorem holderModel_eq_ok_iff {name : String} {definition : Path} {ds : List FieldDecl}
    {m : Model} :
    (holderModel name definition ds).result = .ok m ↔
      ∃ d p, ds = [d] ∧ Modifiers.read d.attributes = .ok {} ∧ (d.part 0).result = .ok p ∧
        p.field.holds definition = true ∧ m = ⟨name, .holder definition, [p]⟩ := by
  constructor
  · intro h
    unfold holderModel at h
    split at h
    · rename_i d
      obtain ⟨o, ho, h⟩ := Traced.bind_eq_ok.1 h
      split_ifs at h with hempty
      · obtain rfl : o = {} := eq_of_beq hempty
        obtain ⟨p, hp, h⟩ := Traced.bind_eq_ok.1 h
        split_ifs at h with hholds
        · cases h
          exact ⟨d, p, rfl, ho, hp, hholds, rfl⟩
        · cases h
      · cases h
    · cases h
  · rintro ⟨d, p, rfl, hd, hp, hholds, rfl⟩
    refine Traced.bind_eq_ok.2 ⟨{}, hd, ?_⟩
    rw [if_pos (show ({} : Modifiers).isEmpty = true from rfl)]
    refine Traced.bind_eq_ok.2 ⟨p, hp, ?_⟩
    rw [if_pos hholds]
    rfl

/-- **Accepted holders.**  A record declared as the holder of a definition is accepted just if it
has exactly one field, named or not, whose attributes ask for nothing and whose type is an optional
value of the definition.  Its model has the role of the holder and one part under the label of the
field, which is an optional value of a type with its own code. -/
theorem Item.modelAs_holder_exactly (name : String) (attributes : List Attribute)
    (fields : FieldList) (definition : Path) (m : Model) :
    ((Item.mk name attributes [] (.record fields)).modelAs (.holder definition)).result = .ok m ↔
      ∃ d content, fields.toList = [d] ∧ Modifiers.read d.attributes = .ok {} ∧
        d.type.OptionOf definition content ∧
        m = ⟨name, .holder definition,
          [⟨d.label 0, .held ("self." ++ (d.label 0).text) d.type content⟩]⟩ := by
  show (holderModel name definition fields.toList).result = .ok m ↔ _
  rw [holderModel_eq_ok_iff]
  constructor
  · rintro ⟨d, p, hd, hattributes, hp, hholds, rfl⟩
    obtain ⟨f, hf, rfl⟩ := FieldDecl.part_eq_ok_iff.1 hp
    obtain ⟨content, hcontent, rfl⟩ := (Field.build_holds_iff hattributes).1 ⟨hf, hholds⟩
    exact ⟨d, content, hd, hattributes, hcontent, rfl⟩
  · rintro ⟨d, content, hd, hattributes, hcontent, rfl⟩
    obtain ⟨hf, hholds⟩ := (Field.build_holds_iff hattributes).2 ⟨content, hcontent, rfl⟩
    exact ⟨d, _, hd, hattributes, FieldDecl.part_eq_ok_iff.2 ⟨_, hf, rfl⟩, hholds, rfl⟩

/-- A definition may have the name of a container, and what is not a type does not count among the
arguments. -/
example :
    ((Item.mk "Queue" [] [] (.record (.named [{
        name := some "content"
        type := .paren (.path false [.plain "std", .applied "Option" true [.lifetime "'a",
          .type (.hidden (.path false [.plain "shapes", .plain "Vec"]))]]) }]))).modelAs
      (.holder ⟨false, [.plain "Vec"]⟩)).result.isOk = true := rfl

end Marshal
