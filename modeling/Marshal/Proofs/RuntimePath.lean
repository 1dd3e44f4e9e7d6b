import Marshal.Derive
import Marshal.Proofs.Parts
import Marshal.Proofs.Words

/-!
# Where emitted code finds the run-time library

An item may say under which path emitted code finds the run-time library.  The path is only put
before names: all implementations are templates around it (`Model.exists_templates`), whose own
words are permitted because a model has its words from the declaration (`Item.plain_modelAs`).  So
nothing in emitted code depends on another path than the configured one, which
`Item.derive_elsewhere` says of whatever is emitted for an item.
-/

namespace Marshal

open Token

/-! ### Declared tokens -/

/-- The name and the type of a field. -/
def FieldDecl.given (d : FieldDecl) : List Token := words d.name.toList ++ d.type.tokens

/-- The name of a variant and those of its fields, with their types. -/
def Variant.given (v : Variant) : List Token :=
  atom v.name :: v.fields.toList.flatMap FieldDecl.given

/-- The names that an item declares and the types of its fields. -/
def Item.given (item : Item) : List Token :=
  atom item.name ::
    match item.body with
    | .record fields | .untagged fields => fields.toList.flatMap FieldDecl.given
    | .enumeration variants => variants.flatMap Variant.given

/-- The definition that a holder names. -/
def Role.given : Role → List Token
  | .holder path => path.tokens
  | .none | .record | .definition => []

/-- The label of a part and the types in it. -/
def Part.given (p : Part) : List Token := atom p.label.text :: p.field.given

/-- What a model has from the declaration. -/
def Model.given (m : Model) : List Token :=
  atom m.name :: (m.role.given ++ m.parts.flatMap Part.given)

section Declared

variable {W : String → Prop}

theorem Field.plain_ofType {t : TypeExpr} {n : Nat} {f : Field} (h : ofType t n = .ok f)
    (ht : Plain W t.tokens) : Plain W f.given :=
  (ofType_eq_ok_iff.1 h).plain_given ht

theorem Field.plain_finish {name : String} {attributes : List Attribute} {f f' : Field}
    (h : f.finish name attributes = .ok f') (hf : Plain W f.given) : Plain W f'.given := by
  obtain ⟨m, -, rfl⟩ := finish_eq_ok h
  rwa [given_withModifiers, given_withName]

theorem FieldDecl.plain_build {d : FieldDecl} {name : String} {n : Nat} {f : Field}
    (h : Field.build name d n = .ok f) (hd : Plain W d.given) : Plain W f.given := by
  obtain ⟨g, hg, hf⟩ := Field.build_eq_ok h
  exact Field.plain_finish hf (Field.plain_ofType hg (plain_append.1 hd).2)

theorem plain_memberParts {union : String} {before ps : List Part} {tag : Nat}
    {vs : List Variant} (h : (memberParts union before tag vs).result = .ok ps)
    (hbefore : ∀ p ∈ before, Plain W p.given) (hvs : ∀ v ∈ vs, Plain W v.given) :
    ∀ p ∈ ps, Plain W p.given := by
  induction vs generalizing before tag with
  | nil =>
    cases h
    exact hbefore
  | cons v vs ih =>
    obtain ⟨p, hp, h⟩ := Traced.bind_eq_ok.1 h
    obtain ⟨_, -, h⟩ := Traced.bind_eq_ok.1 h
    obtain ⟨-, d, f, hd, hf, rfl⟩ := Variant.member_eq_ok hp
    rw [List.forall_mem_cons] at hvs
    obtain ⟨hname, hfields⟩ := plain_atom.1 hvs.1
    rw [Variant.toList_of_content hd, List.flatMap_singleton] at hfields
    refine ih h (List.forall_mem_append.2 ⟨hbefore, List.forall_mem_singleton.2 ?_⟩) hvs.2
    have hinner : Plain W f.given := d.plain_build hf hfields
    exact plain_atom.2 ⟨hname, hinner⟩

-- the labels of fields without names are numbers
variable (hdigits : ∀ n : Nat, W (toString n))

include hdigits

theorem FieldDecl.plain_part {d : FieldDecl} {i : Nat} {p : Part} (h : (d.part i).result = .ok p)
    (hd : Plain W d.given) : Plain W p.given := by
  obtain ⟨f, hf, rfl⟩ := part_eq_ok_iff.1 h
  refine plain_atom.2 ⟨?_, d.plain_build hf hd⟩
  have hs : ∀ s ∈ d.name.toList, W s := plain_words.1 (plain_append.1 hd).1
  rcases hname : d.name with _ | s
  · rw [label, hname]
    exact hdigits i
  · rw [label, hname]
    exact hs s (by simp [hname])

theorem plain_recordParts {i : Nat} {ds : List FieldDecl} {ps : List Part}
    (h : (recordParts i ds).result = .ok ps) (hds : ∀ d ∈ ds, Plain W d.given) :
    ∀ p ∈ ps, Plain W p.given := by
  induction ds generalizing i ps with
  | nil =>
    cases h
    exact List.forall_mem_nil _
  | cons d ds ih =>
    obtain ⟨p, hp, h⟩ := Traced.bind_eq_ok.1 h
    obtain ⟨qs, hqs, h⟩ := Traced.bind_eq_ok.1 h
    cases h
    rw [List.forall_mem_cons] at hds ⊢
    exact ⟨d.plain_part hdigits hp hds.1, ih hqs hds.2⟩

theorem FieldDecl.plain_aliasPart {d : FieldDecl} {ident : String} {p : Part}
    (h : (d.aliasPart ident).result = .ok p) (hd : Plain W d.given) (hident : W ident) :
    Plain W p.given := by
  obtain ⟨f, hf, h⟩ := Traced.bind_eq_ok.1 h
  obtain ⟨_, -, h⟩ := Traced.bind_eq_ok.1 h
  cases h
  simp only [Traced.ofExcept] at hf
  split at hf
  · cases hf
  · rename_i inner hinner
    have hplain := Field.plain_ofType hinner (plain_append.1 hd).2
    exact plain_atom.2 ⟨hdigits 0, Field.plain_finish hf (plain_atom.2 ⟨hident, hplain⟩)⟩

theorem plain_recordModel {name : String} {fields : FieldList} {m : Model}
    (h : (recordModel name fields).result = .ok m) (hname : W name)
    (hfields : ∀ d ∈ fields.toList, Plain W d.given) : Plain W m.given := by
  obtain ⟨ps, hps, h⟩ := Traced.bind_eq_ok.1 h
  cases h
  refine plain_atom.2 ⟨hname, plain_append.2 ⟨plain_nil, plain_flatMap.2 ?_⟩⟩
  split at hps
  · rename_i d
    obtain ⟨p, hp, hps⟩ := Traced.bind_eq_ok.1 hps
    cases hps
    exact List.forall_mem_singleton.2
      (d.plain_aliasPart hdigits hp (hfields d List.mem_cons_self) hname)
  · exact plain_recordParts hdigits hps hfields

theorem plain_holderModel {name : String} {definition : Path} {ds : List FieldDecl} {m : Model}
    (h : (holderModel name definition ds).result = .ok m) (hname : W name)
    (hdefinition : Plain W definition.tokens) (hds : ∀ d ∈ ds, Plain W d.given) :
    Plain W m.given := by
  unfold holderModel at h
  split at h
  · obtain ⟨o, -, h⟩ := Traced.bind_eq_ok.1 h
    split_ifs at h
    · obtain ⟨p, hp, h⟩ := Traced.bind_eq_ok.1 h
      split_ifs at h
      · cases h
        have hpart := FieldDecl.plain_part hdigits hp (hds _ List.mem_cons_self)
        exact plain_atom.2 ⟨hname, plain_append.2
          ⟨hdefinition, plain_flatMap.2 (List.forall_mem_singleton.2 hpart)⟩⟩
      · cases h
    · cases h
  · cases h

/-- A model has no other words than numbers and what the declaration and its role say. -/
theorem Item.plain_modelAs {item : Item} {role : Role} {m : Model}
    (h : (item.modelAs role).result = .ok m) (hitem : Plain W item.given)
    (hrole : Plain W role.given) : Plain W m.given := by
  obtain ⟨name, attributes, generics, body⟩ := item
  obtain ⟨hname, hbody⟩ := plain_atom.1 hitem
  simp only [Item.modelAs] at h
  split_ifs at h
  · split at h
    · cases h
    · exact plain_holderModel hdigits h hname hrole (plain_flatMap.1 hbody)
    · exact plain_recordModel hdigits h hname (plain_flatMap.1 hbody)
    · exact plain_recordModel hdigits h hname (plain_flatMap.1 hbody)
    · obtain ⟨ps, hps, h⟩ := Traced.bind_eq_ok.1 h
      cases h
      have hparts := plain_memberParts hps (List.forall_mem_nil _) (plain_flatMap.1 hbody)
      exact plain_atom.2 ⟨hname, plain_append.2 ⟨plain_nil, plain_flatMap.2 hparts⟩⟩
    · cases h
    · cases h
  · cases h

end Declared

/-! ### Implementations -/

section Printed

variable {ds : List Token}

namespace Implementation

theorem template_ofTrait {trait name : String} {body : List Token → List Token}
    (hname : Permitted ds name) (hbody : Template (Permitted ds) body) :
    Template (Permitted ds) fun path => ofTrait path trait name (body path) := by
  refine Template.own ?_ |>.append (.cons ?_ (.names ?_ trait ?_)) |>.append (.own ?_)
    |>.append (.enclosed _ hbody)
  all_goals simp [derived, attr, hname]

theorem template_resultType {value : List Token} (hvalue : Plain (Permitted ds) value) :
    Template (Permitted ds) fun path => resultType path value := by
  refine Template.own ?_ |>.append (.own ?_) |>.append (.cons ?_ (.names ?_ _ ?_))
    |>.append (.own ?_)
  all_goals simp [hvalue]

theorem template_encodeFn {buffer : String} {body : List Token → List Token}
    (hbuffer : Permitted ds buffer) (hbody : Template (Permitted ds) body) :
    Template (Permitted ds) fun path => encodeFn buffer (body path) := by
  refine .append (.own ?_) (.group_cons _ (.own ?_) (.enclosed _ hbody))
  all_goals simp [bufferType, hbuffer]

theorem template_decodeFn {input : String} {body : List Token → List Token}
    (hinput : Permitted ds input) (hbody : Template (Permitted ds) body) :
    Template (Permitted ds) fun path => decodeFn path input (body path) := by
  refine Template.own ?_ |>.append (.own ?_) |>.append (template_resultType ?_)
    |>.append (.enclosed _ hbody)
  all_goals simp [inputType, hinput]

theorem template_equalsFn {other : String} {body : List Token → List Token}
    (hother : Permitted ds other) (hbody : Template (Permitted ds) body) :
    Template (Permitted ds) fun path => equalsFn other (body path) := by
  refine .append (.own ?_) (.group_cons _ (.own ?_) (.cons ?_ (.cons ?_ (.enclosed _ hbody))))
  all_goals simp [hother]

theorem plain_okTokens {value : List Token} (h : Plain (Permitted ds) value) :
    Plain (Permitted ds) (okTokens value) := by
  simp [okTokens, h]

theorem plain_allow {lints : List (List Token)} (h : ∀ l ∈ lints, Plain (Permitted ds) l) :
    Plain (Permitted ds) (allow lints) := by
  have hseparated : Plain (Permitted ds) (separated "," lints) := by
    fun_induction separated "," lints with
    | case1 => exact plain_nil
    | case2 ts => exact h ts List.mem_cons_self
    | case3 ts rest _ ih =>
      rw [List.forall_mem_cons] at h
      exact plain_append.2 ⟨h.1, plain_atom.2 ⟨by simp, ih h.2⟩⟩
  simp [allow, attr, hseparated]

theorem plain_encodeLints : Plain (Permitted ds) (allow encodeLints) :=
  plain_allow (by simp [encodeLints, lint, styleLint])

theorem plain_decodeLints : Plain (Permitted ds) (allow decodeLints) :=
  plain_allow (by simp [decodeLints, lint, styleLint])

end Implementation

open Implementation

namespace Model

variable {m : Model}

theorem plain_placeIn {p : Part} {value : String} (hp : Plain (Permitted ds) p.given)
    (hvalue : Permitted ds value) : Plain (Permitted ds) (p.placeIn value).given := by
  simp [Part.placeIn, Place.given, hvalue, (plain_atom.1 hp).1]

theorem template_codes {codes : List Code} (h : ∀ c ∈ codes, Plain (Permitted ds) c.given) :
    Template (Permitted ds) fun path => codes.flatMap (Code.tokens path) :=
  .flatMap fun c hc => c.template_tokens (h c hc)

theorem templates_record (hname : Permitted ds m.name)
    (hparts : ∀ p ∈ m.parts, Plain (Permitted ds) p.given) :
    Templates (Permitted ds) m.recordImplementations := by
  have hself : ∀ p ∈ m.parts, Plain (Permitted ds) (p.placeIn "self").given :=
    fun p hp => plain_placeIn (hparts p hp) (by simp)
  have hother : ∀ p ∈ m.parts, Plain (Permitted ds) (p.placeIn "other").given :=
    fun p hp => plain_placeIn (hparts p hp) (by simp)
  have hencode : ∀ c ∈ m.encodeCode, Plain (Permitted ds) c.given :=
    List.forall_mem_map.2 fun p hp => Field.plain_encodeCode (hself p (List.mem_of_mem_filter hp))
  have hdecode : ∀ c ∈ m.decodeCode, Plain (Permitted ds) c.given :=
    List.forall_mem_map.2 fun p hp =>
      Field.plain_decodeCode (plain_atom.1 (hparts p (List.mem_of_mem_filter hp))).2
        (hself p (List.mem_of_mem_filter hp))
  have hequality : ∀ c ∈ m.equalityCode, Plain (Permitted ds) c.given :=
    List.forall_mem_map.2 fun p hp =>
      Field.plain_equalityCode (hself p (List.mem_of_mem_filter hp))
        (hother p (List.mem_of_mem_filter hp))
  unfold recordImplementations
  split_ifs
  · refine .cons (template_ofTrait hname (template_encodeFn ?_ (.own ?_)))
      (.cons (template_ofTrait hname (template_decodeFn ?_ (.own (plain_okTokens ?_))))
        (.cons (template_ofTrait hname (template_equalsFn ?_ (.own ?_)))
          (.own (List.forall_mem_nil _))))
    all_goals simp
  · refine .cons (template_ofTrait hname (.append (.own plain_encodeLints)
        (template_encodeFn ?_ (template_codes hencode))))
      (.cons (template_ofTrait hname (.append (.own plain_decodeLints)
          (template_decodeFn ?_ (.append (.append (.own ?_) (template_codes hdecode))
            (.own (plain_okTokens ?_))))))
        (.cons (template_ofTrait hname (.append (.own (plain_allow ?_))
            (template_equalsFn ?_ (.append (template_codes hequality) (.own ?_)))))
          (.own (List.forall_mem_nil _))))
    all_goals simp [startOffset, lint, styleLint]

end Model

/-! ### Members -/

namespace MemberEntry

variable {e : MemberEntry}

/-- The name of a member and the types in it. -/
def given (e : MemberEntry) : List Token := atom e.variant :: e.inner.given

theorem plain_of_part {W : String → Prop} {p : Part} (h : p.member? = some e)
    (hp : Plain W p.given) : Plain W e.given := by
  unfold Part.member? at h
  split at h
  · rename_i hlabel hfield
    cases h
    rw [Part.given, hlabel, hfield] at hp
    exact hp
  · cases h

theorem plain_applied (he : Plain (Permitted ds) e.given) (inner : List Token)
    (h : Plain (Permitted ds) inner) : Plain (Permitted ds) (e.applied inner) := by
  simp [applied, h, (plain_atom.1 he).1]

theorem plain_tagArm (he : Plain (Permitted ds) e.given) : Plain (Permitted ds) e.tagArm := by
  have happlied := plain_applied he (words ["_"]) (by simp)
  simp [tagArm, tagToken, happlied]

theorem template_encodeArm (he : Plain (Permitted ds) e.given) :
    Template (Permitted ds) fun path => encodeArm path e := by
  refine .append (.own (plain_applied he _ ?_)) (.cons ?_ (.enclosed _ (Code.template_tokens _ ?_)))
  · simp [Local.token]
  · simp
  · exact Field.plain_encodeCode plain_nil

theorem template_decodeArm (he : Plain (Permitted ds) e.given) :
    Template (Permitted ds) fun path => decodeArm path e := by
  have hinner : Plain (Permitted ds) e.inner.given := (plain_atom.1 he).2
  have happlied := plain_applied he [e.value.token] (by simp [Local.token])
  refine .cons ?_ (.cons ?_ (.enclosed _ (.append (Code.template_tokens _ ?_)
    (.own (plain_okTokens ?_)))))
  · simp
  · simp
  · exact plain_append.2 ⟨Field.plain_type hinner, Field.plain_decodeCode hinner plain_nil⟩
  · simp [happlied]

theorem template_equalityArm (he : Plain (Permitted ds) e.given) :
    Template (Permitted ds) fun path => equalityArm path e := by
  have hlhs := plain_applied he [e.lhs.token] (by simp [Local.token])
  have hrhs := plain_applied he [e.rhs.token] (by simp [Local.token])
  refine .group_cons _ (.own ?_) (.cons ?_ (.enclosed _ (.append (Code.template_tokens _ ?_)
    (.own ?_))))
  · simp [hlhs, hrhs]
  · simp
  · exact Field.plain_equalityCode plain_nil plain_nil
  · simp

theorem plain_conversionImplementation (he : Plain (Permitted ds) e.given) {name : String}
    (hname : Permitted ds name) : Plain (Permitted ds) (e.conversionImplementation name) := by
  have htype := Field.plain_type (plain_atom.1 he).2
  have happlied := plain_applied he (words ["value"]) (by simp)
  simp [conversionImplementation, derived, attr, hname, htype, happlied]

end MemberEntry

namespace Model

variable {m : Model}

theorem template_definitionBody (hmembers : ∀ e ∈ m.members, Plain (Permitted ds) e.given) :
    Template (Permitted ds) fun path => m.definitionBody path := by
  have htags : Plain (Permitted ds) (m.members.flatMap MemberEntry.tagArm) :=
    plain_flatMap.2 fun e he => MemberEntry.plain_tagArm (hmembers e he)
  have hencode : Template (Permitted ds) fun path =>
      m.members.flatMap (MemberEntry.encodeArm path) :=
    .flatMap fun e he => MemberEntry.template_encodeArm (hmembers e he)
  have hdecode : Template (Permitted ds) fun path =>
      m.members.flatMap (MemberEntry.decodeArm path) :=
    .flatMap fun e he => MemberEntry.template_decodeArm (hmembers e he)
  have hequality : Template (Permitted ds) fun path =>
      m.members.flatMap (MemberEntry.equalityArm path) :=
    .flatMap fun e he => MemberEntry.template_equalityArm (hmembers e he)
  -- the size, the tag, and the functions that encode, decode and compare
  refine Template.own ?_ |>.append (.own ?_) |>.append ?_ |>.append ?_ |>.append ?_
  · simp [permitted_repr_append]
  · simp [htags]
  · refine Template.own plain_encodeLints |>.append (.own ?_)
      |>.append (.group_cons _ (.own ?_) (.enclosed _ (.append (.own ?_) (.enclosed _ hencode))))
    all_goals simp [bufferType]
  · refine Template.own (plain_allow ?_) |>.append (.own ?_) |>.append (.own ?_)
      |>.append (template_resultType ?_) |>.append (.enclosed _ (Template.own ?_
        |>.append (.own ?_) |>.append (.enclosed _ (hdecode |>.append (.own ?_) |>.append (.own ?_)
          |>.append (.group_cons _ (.append (.names ?_ _ ?_) (.own ?_)) (.own ?_))))))
    all_goals simp [inputType, startOffset, decodeLints, lint, styleLint]
  · refine Template.own (plain_allow ?_) |>.append (.own ?_) |>.append (.own ?_)
      |>.append (.own ?_) |>.append (.enclosed _ (.cons ?_ (.group_cons _ (.own ?_)
        (.enclosed _ (.append hequality (.own ?_))))))
    all_goals simp [lint, styleLint]

theorem templates_definition (hname : Permitted ds m.name)
    (hparts : ∀ p ∈ m.parts, Plain (Permitted ds) p.given) :
    Templates (Permitted ds) m.definitionImplementations := by
  have hmembers : ∀ e ∈ m.members, Plain (Permitted ds) e.given := by
    intro e he
    obtain ⟨p, hp, hpe⟩ := List.mem_filterMap.1 he
    exact MemberEntry.plain_of_part hpe (hparts p hp)
  refine .cons (template_ofTrait hname (template_definitionBody hmembers)) (.own ?_)
  exact List.forall_mem_map.2 fun e he =>
    MemberEntry.plain_conversionImplementation (hmembers e he) hname

end Model

/-! ### Holders -/

namespace Implementation

variable {p : Part} {definition : List Token}

theorem plain_selfTokens (hp : Plain (Permitted ds) p.given) :
    Plain (Permitted ds) p.selfTokens :=
  Place.plain_tokens (Model.plain_placeIn hp (by simp))

theorem plain_selfRefTokens (hp : Plain (Permitted ds) p.given) :
    Plain (Permitted ds) p.selfRefTokens := by
  simp [Part.selfRefTokens, plain_selfTokens hp]

/-- A line of documentation starts with the mark of a raw string. -/
theorem plain_doc (line : String) : Plain (Permitted ds) (doc line) := by
  have hline : Permitted ds ("r\" " ++ line ++ "\"") :=
    permitted_of_head (by simp; rfl) List.mem_cons_self
  simp [doc, attr, hline]

theorem template_asDefinition (hdefinition : Plain (Permitted ds) definition) :
    Template (Permitted ds) fun path => asDefinition path definition := by
  refine .append (.append (.own ?_) (.cons ?_ (.names ?_ _ ?_))) (.own ?_)
  all_goals simp [hdefinition]

theorem template_holderEncode (hp : Plain (Permitted ds) p.given) :
    Template (Permitted ds) fun path => holderEncode path p := by
  have hself := plain_selfTokens hp
  refine template_encodeFn (by simp) ?_
  refine Template.own ?_ |>.append (.own ?_)
    |>.append (.cons ?_ (Code.template_writeTokens ?_ ?_)) |>.append (.own ?_)
    |>.append (.names ?_ _ ?_) |>.append (.own ?_) |>.append (.own ?_) |>.append (.own ?_)
    |>.append (.own ?_) |>.append (.enclosed _ (.append (.names ?_ _ ?_) (.own ?_)))
  all_goals simp [tagOf, Code.someTokens, hself]

theorem template_holderDecode (hdefinition : Plain (Permitted ds) definition)
    (hp : Plain (Permitted ds) p.given) :
    Template (Permitted ds) fun path => holderDecode path definition p := by
  have hself := plain_selfTokens hp
  refine template_decodeFn (by simp) ?_
  refine Template.own ?_ |>.append (.names ?_ _ ?_) |>.append (.own ?_) |>.append (.own ?_)
    |>.append (.names ?_ _ ?_) |>.append (.own ?_) |>.append (template_asDefinition hdefinition)
    |>.append (.own ?_) |>.append (.own ?_) |>.append (.own ?_) |>.append (.own ?_)
    |>.append (.own ?_) |>.append (.own ?_)
  all_goals simp [Code.noneTokens, Code.restTokens, Code.advanceTokens, okTokens, hself]

theorem template_holderEquals (hp : Plain (Permitted ds) p.given) :
    Template (Permitted ds) fun path => holderEquals path p := by
  have hself : Plain (Permitted ds) (p.placeIn "self").tokens := plain_selfTokens hp
  have hother : Plain (Permitted ds) (p.placeIn "other").tokens :=
    Place.plain_tokens (Model.plain_placeIn hp (by simp))
  refine template_equalsFn (by simp) ?_
  refine Template.own ?_ |>.append (.own ?_)
    |>.append (.group_cons _ (.own ?_) (.cons ?_ (.group_cons _ (.own ?_)
      (.enclosed _ (Template.own ?_ |>.append (.names ?_ _ ?_) |>.append (.own ?_))))))
  all_goals simp [tagOf, Place.refTokens, Code.someTokens, hself, hother]

theorem template_holderMethods (hdefinition : Plain (Permitted ds) definition)
    (hp : Plain (Permitted ds) p.given) :
    Template (Permitted ds) fun path => holderMethods path definition p := by
  have hself := plain_selfTokens hp
  have hselfRef := plain_selfRefTokens hp
  have hlabel := (plain_atom.1 hp).1
  -- making a holder, its tag, its size, looking into it and replacing what it holds
  refine Template.own ?_ |>.append ?_ |>.append ?_ |>.append (.own ?_) |>.append (.own ?_)
  · simp [plain_doc, intoType, hdefinition, hlabel]
  · refine Template.own ?_ |>.append (.own ?_) |>.append (.own ?_) |>.append (.enclosed _
      (.append (.own ?_) (.enclosed _ (.append (.names ?_ _ ?_) (.cons ?_ (.names ?_ _ ?_))))))
    all_goals simp [plain_doc, hselfRef]
  · refine Template.own ?_ |>.append (.own ?_) |>.append (.own ?_)
      |>.append (.enclosed _ (.append (template_asDefinition hdefinition) (.own ?_)))
    all_goals simp [plain_doc]
  · simp [plain_doc, hdefinition, hselfRef]
  · simp [plain_doc, intoType, hdefinition, hself]

end Implementation

namespace Model

variable {m : Model}

theorem templates_holder {definition : Path} (hname : Permitted ds m.name)
    (hdefinition : Plain (Permitted ds) definition.tokens)
    (hparts : ∀ p ∈ m.parts, Plain (Permitted ds) p.given) :
    Templates (Permitted ds) fun path => m.holderImplementations path definition := by
  unfold holderImplementations
  split
  · exact .own (List.forall_mem_nil _)
  · rename_i p ps hps
    have hp : Plain (Permitted ds) p.given := hparts p (hps ▸ List.mem_cons_self)
    refine .cons (template_ofTrait hname (template_holderEncode hp))
      (.cons (template_ofTrait hname (template_holderDecode hdefinition hp))
        (.cons (template_ofTrait hname (template_holderEquals hp))
          (.cons (.append (.own ?_) (.enclosed _ (template_holderMethods hdefinition hp)))
            (.own (List.forall_mem_nil _)))))
    have hlint : Plain (Permitted ds) (allow [lint "dead_code"]) := plain_allow (by simp [lint])
    simp [derived, attr, hlint, hname]

/-- The implementations of a model are templates around the path of the run-time library. -/
theorem exists_templates (hm : Plain (Permitted ds) m.given) :
    ∃ ts, Templates (Permitted ds) ts ∧
      ∀ runtime, m.implementations runtime = ts runtime.tokens := by
  obtain ⟨hname, hm⟩ := plain_atom.1 hm
  obtain ⟨hrole, hparts⟩ := plain_append.1 hm
  rw [plain_flatMap] at hparts
  rcases hr : m.role with _ | _ | definition | _
  · exact ⟨_, templates_record hname hparts, fun runtime => by rw [implementations, hr]⟩
  · exact ⟨_, templates_record hname hparts, fun runtime => by rw [implementations, hr]⟩
  · rw [hr] at hrole
    exact ⟨_, templates_holder hname hrole hparts, fun runtime => by rw [implementations, hr]⟩
  · exact ⟨_, templates_definition hname hparts, fun runtime => by rw [implementations, hr]⟩

end Model

end Printed

/-! ### Deriving -/

namespace Item

/-- What is emitted for an item around the path of the run-time library: its implementations with
nothing in the place of the path. -/
def surroundings (item : Item) (role : Role) : List Implementation :=
  match (item.modelAs role).result with
  | .ok m => m.implementations ⟨false, []⟩
  | .error _ => []

theorem derive_eq {item : Item} {o : ItemSettings} (h : ItemSettings.read item.attributes = .ok o) :
    item.derive = (item.modelAs o.role).bind fun m => m.generate o.runtimePath := by
  rw [derive, h]
  rfl

theorem modelAs_withAttributes (item : Item) (as : List Attribute) (role : Role) :
    { item with attributes := as }.modelAs role = item.modelAs role := rfl

/-- **The path of the run-time library.**  Take two declarations that differ in their attributes
only and are to become the same, and let the first find the run-time library under a single name
`p` that is not emitted around the path.  Then the second is accepted or refused like the first,
with the same reports, and what is emitted for it is what is emitted for the first, with its own
path in the place of every `p`.  And wherever a name of the run-time library is emitted that comes
neither with the declaration nor with the path, it stands right below the path. -/
theorem derive_elsewhere {item item' : Item} {o o' : ItemSettings} {p : String}
    (hitem : item' = { item with attributes := item'.attributes })
    (ho : ItemSettings.read item.attributes = .ok o)
    (ho' : ItemSettings.read item'.attributes = .ok o') (hrole : o'.role = o.role)
    (hp : o.runtimePath = ⟨false, [.plain p]⟩)
    (hfresh : ∀ c ∈ item.surroundings o.role, p ∉ atomsIn c) :
    item'.derive.events = item.derive.events ∧
    item'.derive.result =
      item.derive.result.map (List.map (replaceIn p o'.runtimePath.tokens)) ∧
    ∀ codes, item'.derive.result = .ok codes → ∀ c ∈ codes, ∀ x ∈ runtimeNames,
      x ∉ atomsIn (item.given ++ o.role.given ++ o'.runtimePath.tokens) →
        OnlyBehind (o'.runtimePath.tokens ++ [atom "::"]) x c := by
  have hmodel : item'.modelAs o'.role = item.modelAs o.role := by
    rw [hitem, modelAs_withAttributes, hrole]
  rw [derive_eq ho, derive_eq ho', hmodel]
  rcases hm : (item.modelAs o.role).result with e | m
  · simp [Traced.bind, hm, Except.map]
  · have hgiven : Plain (Permitted (item.given ++ o.role.given)) m.given :=
      plain_modelAs (fun n => permitted_repr n) hm (fun s hs _ => by simp [hs])
        (fun s hs _ => by simp [hs])
    obtain ⟨ts, hts, himplementations⟩ := m.exists_templates hgiven
    have hpath : o.runtimePath.tokens = [atom p] := by
      simp [hp, Path.tokens, Path.toType, TypeExpr.tokens, segmentTokens, Segment.tokens]
    have hplaceless : (Path.mk false []).tokens = [] := by
      simp [Path.tokens, Path.toType, TypeExpr.tokens, segmentTokens]
    have hfresh : ∀ c ∈ ts [], p ∉ atomsIn c := by
      rw [surroundings, hm] at hfresh
      simpa [himplementations, hplaceless] using hfresh
    simp only [Traced.bind, hm, Model.generate, himplementations, hpath, Except.map]
    refine ⟨trivial, congrArg Except.ok (hts.map_replaceIn hfresh _).symm, ?_⟩
    rintro codes ⟨⟩ c hc x hx hnew
    rw [atomsIn_append, List.mem_append, not_or] at hnew
    exact hts.onlyBehind (fun hW => hnew.1 (hW hx)) (by simp) hnew.2 hc

/-- A record with the given attributes. -/
def cabinet (attributes : List Attribute) : Item where
  name := "Cabinet"
  attributes := attributes
  body := .record (.named
    [{ name := some "boxes"
       type := .apply "HashMap" [.named "String", .apply "Vec" [.named "Box"]] },
      { name := some "width"
        type := .named "u32"
        attributes := [⟨"cod", .entries [.keyed "cast" (.string "u16")]⟩] }])

/-- The attributes that say where the run-time library is. -/
def foundAt (path : String) : List Attribute := [⟨"cod", .entries [.keyed "crate" (.string path)]⟩]

/-- The cabinet is emitted below `wire`, and without attributes below the default path. -/
theorem derive_elsewhere_cabinet :
    (cabinet []).derive.result =
      (cabinet (foundAt "wire")).derive.result.map
        (List.map (replaceIn "wire" ItemSettings.defaultRuntime.tokens)) ∧
    ∀ codes, (cabinet []).derive.result = .ok codes → ∀ c ∈ codes,
      OnlyBehind (ItemSettings.defaultRuntime.tokens ++ [atom "::"]) "Error" c := by
  have h := @derive_elsewhere (cabinet (foundAt "wire")) (cabinet [])
    { runtime := some ⟨false, [.plain "wire"]⟩ } {} "wire" rfl rfl rfl rfl rfl (by decide +kernel)
  refine ⟨h.2.1, fun codes hcodes c hc => h.2.2 codes hcodes c hc "Error" ?_ ?_⟩
  · simp [runtimeNames]
  · decide +kernel

end Item

end Marshal
