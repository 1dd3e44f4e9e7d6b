import Marshal.Proofs.Parts
import Mathlib.Data.List.Induction
import Mathlib.Data.List.Nodup

/-!
# Which union definitions are accepted

A variant can be at fault by itself, by its position or by what was declared before it.
`Variant.Wraps` says that it is not at fault by itself, and `LegalDefinition` that no variant of a
definition is at fault in any way.  `Variant.Offends` lists the faults of a variant that follows a
legal definition, in the order in which they are looked for.

A list of variants is a legal definition, or it has a first variant that offends
(`legal_or_offends`).  The members of a legal definition are all built (`memberParts_append`), and so
are those before the first offence.  This decides what becomes of any list of variants
(`definition_exactly`).
-/

namespace Marshal

/-! ### Type texts -/

/-- The type inside the parentheses and the brackets that are not printed around it. -/
def TypeExpr.bare : TypeExpr → TypeExpr
  | .paren t | .hidden t => t.bare
  | t => t

namespace Field

theorem type_ofSegment {type : TypeExpr} {n : Nat} {s : Segment}
    {arguments : List (Except BuildError Field)} {f : Field}
    (h : ofSegment type n s arguments = .ok f) : f.type = type := by
  unfold ofSegment at h
  split at h
  all_goals split at h <;> cases h <;> rfl

theorem type_ofSegments {type : TypeExpr} {n : Nat} {ss : List Segment} {f : Field}
    (h : ofSegments type n ss = .ok f) : f.type = type := by
  induction ss with
  | nil => simp [ofSegments] at h
  | cons s ss ih =>
    cases ss with
    | nil =>
      rw [ofSegments] at h
      exact type_ofSegment h
    | cons s' ss =>
      rw [ofSegments] at h
      exact ih h

/-- A field keeps the type that it is built from, but for what is around it. -/
theorem type_ofType (t : TypeExpr) {n : Nat} {f : Field} (h : ofType t n = .ok f) :
    f.type = t.bare := by
  cases t with
  | paren t | hidden t =>
    rw [TypeExpr.bare]
    exact type_ofType t (by simpa only [ofType] using h)
  | array t length =>
    simp only [ofType] at h
    split at h <;> cases h
    rfl
  | path leading segments =>
    rw [ofType] at h
    rw [type_ofSegments h]
    rfl
  | _ => simp [ofType] at h

theorem type_withName (name : String) (f : Field) : (f.withName name).type = f.type := by
  induction f generalizing name with
  | member _ _ _ _ ih => exact ih name
  | _ => rfl

theorem type_withModifiers (m : Modifiers) (f : Field) : (f.withModifiers m).type = f.type := by
  induction f with
  | member _ _ _ _ ih => exact ih
  | _ => rfl

/-! ### Casts -/

/-- The leaves of the tree from left to right, each with its type and its wire kind. -/
def leaves : Field → List (TypeExpr × Option Wire)
  | leaf _ t wire => [(t, wire)]
  | array _ _ _ inner | sequence _ _ _ inner | optional _ _ _ inner | synonym _ _ _ inner
  | member _ _ _ inner => inner.leaves
  | map _ _ _ key value => key.leaves ++ value.leaves

/-- The type of the first leaf that is written by itself but is not a number. -/
def uncastable? (f : Field) : Option TypeExpr :=
  (f.leaves.find? fun x => x.2.any fun w => !w.numeric).map Prod.fst

/-- Without a cast all is well, and with a cast all leaves are numbers or have their own code. -/
def Admits (f : Field) (cast : Option Wire) : Prop :=
  cast = none ∨ ∀ t w, (t, some w) ∈ f.leaves → w.numeric = true

theorem leaves_withName (name : String) (f : Field) : (f.withName name).leaves = f.leaves := by
  induction f generalizing name with
  | leaf => rfl
  | array _ _ _ _ ih | sequence _ _ _ _ ih | optional _ _ _ _ ih | synonym _ _ _ _ ih
  | member _ _ _ _ ih => exact ih _
  | map _ _ _ _ _ ihkey ihvalue => exact congrArg₂ _ (ihkey _) (ihvalue _)

theorem uncastable?_withName (name : String) (f : Field) :
    (f.withName name).uncastable? = f.uncastable? := by
  rw [uncastable?, uncastable?, leaves_withName]

theorem uncastable?_map (info : NodeInfo) (t : TypeExpr) (depth : Nat) (key value : Field) :
    (map info t depth key value).uncastable? = key.uncastable?.or value.uncastable? := by
  rw [uncastable?, leaves, List.find?_append, Option.map_or]
  rfl

theorem admits_iff {f : Field} {cast : Option Wire} :
    f.Admits cast ↔ cast = none ∨ f.uncastable? = none := by
  refine or_congr Iff.rfl ?_
  rw [uncastable?, Option.map_eq_none_iff, List.find?_eq_none]
  refine ⟨fun h x hx => ?_, fun h t w hw => ?_⟩
  · obtain ⟨t, _ | w⟩ := x
    · simp
    · simp [h t w hx]
  · simpa using h _ hw

/-- The check of a cast fails at the first leaf that cannot be cast. -/
theorem requireCastable_withModifiers (f : Field) (m : Modifiers) :
    (f.withModifiers m).requireCastable =
      match m.cast, f.uncastable? with
      | some _, some t => .error (.cannotCast t.text)
      | _, _ => .ok () := by
  induction f with
  | leaf info t wire =>
    rcases hc : m.cast with _ | c
    · cases wire <;> simp [withModifiers, requireCastable, hc]
    · rcases wire with _ | w
      · simp [withModifiers, requireCastable, hc, uncastable?, leaves]
      · by_cases hw : w.numeric = true
        all_goals simp [withModifiers, requireCastable, hc, uncastable?, leaves, hw]
  | array _ _ _ _ ih | sequence _ _ _ _ ih | optional _ _ _ _ ih | synonym _ _ _ _ ih
  | member _ _ _ _ ih => exact ih
  | map _ _ _ key value ihkey ihvalue =>
    rw [withModifiers, requireCastable, ihkey, ihvalue, uncastable?_map]
    rcases m.cast with _ | c
    · rfl
    · rcases key.uncastable? with _ | t
      · rfl
      · rfl

theorem info_built (f : Field) (name : String) (m : Modifiers) :
    ((f.withName name).withModifiers m).info = ⟨name, m⟩ := by cases f <;> rfl

theorem build_of_error {d : FieldDecl} {depth : Nat} {e : BuildError}
    (hg : ofType d.type depth = .error e) (name : String) :
    Field.build name d depth = .error e := by rw [build, hg]

theorem build_of_uncastable {d : FieldDecl} {depth : Nat} {m : Modifiers} {g : Field} {w : Wire}
    {t : TypeExpr} (hg : ofType d.type depth = .ok g) (hm : Modifiers.read d.attributes = .ok m)
    (hc : m.cast = some w) (ht : g.uncastable? = some t) (name : String) :
    Field.build name d depth = .error (.cannotCast t.text) := by
  simp only [build, hg, finish, hm, requireCastable_withModifiers, uncastable?_withName, hc, ht]

theorem build_of_admits {d : FieldDecl} {depth : Nat} {m : Modifiers} {g : Field}
    (hg : ofType d.type depth = .ok g) (hm : Modifiers.read d.attributes = .ok m)
    (hc : g.Admits m.cast) (name : String) :
    Field.build name d depth = .ok ((g.withName name).withModifiers m) := by
  simp only [build, hg, finish, hm, requireCastable_withModifiers, uncastable?_withName]
  rcases admits_iff.1 hc with hc | hc
  · simp only [hc]
  · cases m.cast <;> simp only [hc]

theorem finish_eq_ok_iff {attributes : List Attribute} {m : Modifiers}
    (hm : Modifiers.read attributes = .ok m) {name : String} {g f : Field} :
    g.finish name attributes = .ok f ↔
      g.Admits m.cast ∧ f = (g.withName name).withModifiers m := by
  simp only [finish, hm, requireCastable_withModifiers, uncastable?_withName, admits_iff]
  rcases hc : m.cast with _ | w
  · simp [eq_comm]
  · rcases g.uncastable? with _ | t
    · simp [eq_comm]
    · simp

theorem build_eq_ok_iff {d : FieldDecl} {m : Modifiers} (hm : Modifiers.read d.attributes = .ok m)
    {name : String} {depth : Nat} {f : Field} :
    Field.build name d depth = .ok f ↔
      ∃ g, ofType d.type depth = .ok g ∧ g.Admits m.cast ∧
        f = (g.withName name).withModifiers m := by
  constructor
  · intro h
    obtain ⟨g, hg, hfinish⟩ := build_eq_ok h
    exact ⟨g, hg, (finish_eq_ok_iff hm).1 hfinish⟩
  · rintro ⟨g, hg, hc, rfl⟩
    exact build_of_admits hg hm hc name

end Field

/-! ### Legal definitions -/

namespace Variant

/-- The variant wraps one unnamed field `d` and nothing is wrong with it: it has no number, the
attributes of the field ask for the modifiers `m` and do not leave it out, the field tree of its
type is `g`, and the cast, if there is one, reaches only what can be cast. -/
structure Wraps (v : Variant) (d : FieldDecl) (m : Modifiers) (g : Field) : Prop where
  unnumbered : v.numbered = false
  fields : v.fields = .tuple [d]
  attributes : Modifiers.read d.attributes = .ok m
  kept : m.skips = false
  type : Field.ofType d.type 1 = .ok g
  castable : g.Admits m.cast

/-- The text of the type that the variant wraps. -/
def memberText? (v : Variant) : Option String := v.content?.map fun d => d.type.bare.text

/-- The variant becomes the part `p` under a tag: it is named after the variant and has the field
tree of the type that the variant wraps. -/
def Becomes (union : String) (v : Variant) (tag : Nat) (p : Part) : Prop :=
  ∃ d m g, v.Wraps d m g ∧
    p = ⟨.name v.name, .member ⟨union ++ "::" ++ v.name, m⟩ tag 0
      ((g.withName (union ++ "::" ++ v.name)).withModifiers m)⟩

/-- What is wrong with a variant after those in `before`, in the order in which it is looked for. -/
inductive Offends (union : String) (before : List Variant) (v : Variant) : BuildError → Prop where
  | discriminant (h : v.numbered = true) : Offends union before v .discriminant
  | memberCount (hn : v.numbered = false) (h : ∀ d, v.fields ≠ .tuple [d]) :
      Offends union before v .memberCount
  | tooMany {d} (hn : v.numbered = false) (hd : v.fields = .tuple [d])
      (h : 255 ≤ before.length) : Offends union before v .tooManyMembers
  | attributes {d e} (hn : v.numbered = false) (hd : v.fields = .tuple [d])
      (hl : before.length < 255) (h : Modifiers.read d.attributes = .error e) :
      Offends union before v e
  | skipped {d m} (hn : v.numbered = false) (hd : v.fields = .tuple [d])
      (hl : before.length < 255) (hm : Modifiers.read d.attributes = .ok m)
      (h : m.skips = true) : Offends union before v .memberSkipped
  | type {d m e} (hn : v.numbered = false) (hd : v.fields = .tuple [d])
      (hl : before.length < 255) (hm : Modifiers.read d.attributes = .ok m)
      (hs : m.skips = false) (h : Field.ofType d.type 1 = .error e) : Offends union before v e
  | cast {d m g w t} (hn : v.numbered = false) (hd : v.fields = .tuple [d])
      (hl : before.length < 255) (hm : Modifiers.read d.attributes = .ok m)
      (hs : m.skips = false) (hg : Field.ofType d.type 1 = .ok g) (hc : m.cast = some w)
      (h : g.uncastable? = some t) : Offends union before v (.cannotCast t.text)
  | duplicate {d m g} (hv : v.Wraps d m g) (hl : before.length < 255)
      (h : v.memberText? ∈ before.map memberText?) :
      Offends union before v (.duplicateMember d.type.bare.text union)

theorem content?_of_fields {v : Variant} {d : FieldDecl} (h : v.fields = .tuple [d]) :
    v.content? = some d := by rw [content?, h]

theorem content?_eq_none {v : Variant} (h : ∀ d, v.fields ≠ .tuple [d]) : v.content? = none := by
  unfold content?
  split
  · rename_i d hd
    exact absurd hd (h d)
  · rfl

variable {union : String} {before : List Variant} {ps : List Part} {v : Variant} {tag : Nat}
  {p : Part} {e : BuildError}

theorem Wraps.typeText {d : FieldDecl} {m : Modifiers} {g : Field} (h : v.Wraps d m g)
    (name : String) : ((g.withName name).withModifiers m).typeText = d.type.bare.text := by
  rw [Field.typeText, Field.type_withModifiers, Field.type_withName, Field.type_ofType _ h.type]

theorem Wraps.memberText {d : FieldDecl} {m : Modifiers} {g : Field} (h : v.Wraps d m g) :
    v.memberText? = some d.type.bare.text := by
  rw [memberText?, content?_of_fields h.fields, Option.map_some]

theorem Becomes.typeText (h : v.Becomes union tag p) : some p.field.typeText = v.memberText? := by
  obtain ⟨d, m, g, hv, rfl⟩ := h
  rw [hv.memberText, ← hv.typeText (union ++ "::" ++ v.name)]
  rfl

/-- A variant offends, or it becomes a member that no earlier one is like. -/
theorem offends_or_becomes (union : String) (before : List Variant) (v : Variant) :
    (∃ e, v.Offends union before e) ∨ before.length < 255 ∧
      v.memberText? ∉ before.map memberText? ∧ ∃ p, v.Becomes union (before.length + 1) p := by
  by_cases hn : v.numbered = true
  · exact .inl ⟨_, .discriminant hn⟩
  rw [Bool.not_eq_true] at hn
  by_cases hd : ∃ d, v.fields = .tuple [d]
  swap
  · exact .inl ⟨_, .memberCount hn (not_exists.1 hd)⟩
  obtain ⟨d, hd⟩ := hd
  by_cases hl : before.length < 255
  swap
  · exact .inl ⟨_, .tooMany hn hd (Nat.le_of_not_lt hl)⟩
  rcases hm : Modifiers.read d.attributes with e | m
  · exact .inl ⟨e, .attributes hn hd hl hm⟩
  by_cases hs : m.skips = true
  · exact .inl ⟨_, .skipped hn hd hl hm hs⟩
  rw [Bool.not_eq_true] at hs
  rcases hg : Field.ofType d.type 1 with e | g
  · exact .inl ⟨e, .type hn hd hl hm hs hg⟩
  by_cases hc : g.Admits m.cast
  · have hv : v.Wraps d m g := ⟨hn, hd, hm, hs, hg, hc⟩
    by_cases ht : v.memberText? ∈ before.map memberText?
    · exact .inl ⟨_, .duplicate hv hl ht⟩
    · exact .inr ⟨hl, ht, _, d, m, g, hv, rfl⟩
  · rw [Field.admits_iff, not_or] at hc
    obtain ⟨w, hw⟩ := Option.ne_none_iff_exists'.1 hc.1
    obtain ⟨t, ht⟩ := Option.ne_none_iff_exists'.1 hc.2
    exact .inl ⟨_, .cast hn hd hl hm hs hg hw ht⟩

/-- The text of the type is looked for among those of the earlier parts. -/
theorem any_typeText_iff (hps : ps.map (fun q => some q.field.typeText) = before.map memberText?)
    {text : String} : (ps.any fun q => q.field.typeText == text) = true ↔
      some text ∈ before.map memberText? := by
  rw [← hps]
  simp

/-- Building the member of a variant that offends fails for that reason. -/
theorem Offends.member (h : v.Offends union before e)
    (hps : ps.map (fun q => some q.field.typeText) = before.map memberText?) :
    v.member union ps (before.length + 1) = .error e := by
  have hroom (hl : before.length < 255) : ¬255 < before.length + 1 := Nat.not_lt_of_le hl
  -- each case passes the checks before the one that fails
  unfold Variant.member
  cases h with
  | discriminant h => rw [if_pos h]
  | memberCount hn h => simp only [hn, content?_eq_none h, Bool.false_eq_true, ↓reduceIte]
  | tooMany hn hd h =>
    have hfull : 255 < before.length + 1 := Nat.lt_succ_of_le h
    simp only [hn, content?_of_fields hd, hfull, Bool.false_eq_true, ↓reduceIte]
  | attributes hn hd hl h =>
    simp only [hn, content?_of_fields hd, hroom hl, h, Bool.false_eq_true, ↓reduceIte]
  | skipped hn hd hl hm h =>
    simp only [hn, content?_of_fields hd, hroom hl, hm, h, Bool.false_eq_true, ↓reduceIte]
  | type hn hd hl hm hs h =>
    simp only [hn, content?_of_fields hd, hroom hl, hm, hs, Field.build_of_error h,
      Bool.false_eq_true, ↓reduceIte]
  | cast hn hd hl hm hs hg hc h =>
    simp only [hn, content?_of_fields hd, hroom hl, hm, hs, Field.build_of_uncastable hg hm hc h,
      Bool.false_eq_true, ↓reduceIte]
  | duplicate hv hl h =>
    rw [hv.memberText, ← any_typeText_iff hps] at h
    simp only [hv.unnumbered, content?_of_fields hv.fields, hroom hl, hv.attributes, hv.kept,
      Field.build_of_admits hv.type hv.attributes hv.castable, hv.typeText, h, Bool.false_eq_true,
      ↓reduceIte]

/-- Building the member of a variant that does not offend succeeds. -/
theorem Becomes.member (h : v.Becomes union (before.length + 1) p) (hl : before.length < 255)
    (ht : v.memberText? ∉ before.map memberText?)
    (hps : ps.map (fun q => some q.field.typeText) = before.map memberText?) :
    v.member union ps (before.length + 1) = .ok p := by
  obtain ⟨d, m, g, hv, rfl⟩ := h
  have hroom : ¬255 < before.length + 1 := Nat.not_lt_of_le hl
  rw [hv.memberText, ← any_typeText_iff hps] at ht
  simp only [Variant.member, hv.unnumbered, content?_of_fields hv.fields, hroom, hv.attributes,
    hv.kept, Field.build_of_admits hv.type hv.attributes hv.castable, hv.typeText, ht,
    Field.info_built, Bool.false_eq_true, ↓reduceIte]

end Variant

/-- No variant of the definition is at fault: there are tags for all of them, each wraps a type by
itself, and no two of the types have the same text. -/
structure LegalDefinition (vs : List Variant) : Prop where
  length_le : vs.length ≤ 255
  wraps : ∀ v ∈ vs, ∃ d m g, v.Wraps d m g
  distinct : (vs.map Variant.memberText?).Nodup

/-- The parts `ps` are those of the definition, one for each variant in the order of declaration
and tagged from `1` on. -/
def Resolves (union : String) (vs : List Variant) (ps : List Part) : Prop :=
  List.Forall₂ (fun x p => x.1.Becomes union x.2 p) (vs.zipIdx 1) ps

variable {union : String} {vs ws : List Variant} {v : Variant} {ps : List Part} {p : Part}

theorem LegalDefinition.of_append (h : LegalDefinition (vs ++ ws)) : LegalDefinition vs where
  length_le := Nat.le_trans (List.sublist_append_left vs ws).length_le h.length_le
  wraps v hv := h.wraps v (List.mem_append_left ws hv)
  distinct := h.distinct.sublist ((List.sublist_append_left vs ws).map _)

theorem legalDefinition_snoc_iff : LegalDefinition (vs ++ [v]) ↔
    LegalDefinition vs ∧ vs.length < 255 ∧ v.memberText? ∉ vs.map Variant.memberText? ∧
      ∃ d m g, v.Wraps d m g := by
  have hlen : (vs ++ [v]).length = vs.length + 1 := List.length_append
  constructor
  · intro h
    have hd := h.distinct
    rw [List.map_append, List.nodup_append_comm] at hd
    exact ⟨h.of_append, Nat.le_trans (Nat.le_of_eq hlen.symm) h.length_le,
      (List.nodup_cons.1 hd).1, h.wraps v (by simp)⟩
  · rintro ⟨h, hl, ht, hv⟩
    refine ⟨Nat.le_trans (Nat.le_of_eq hlen) hl, fun w hw => ?_, ?_⟩
    · rcases List.mem_append.1 hw with hw | hw
      · exact h.wraps w hw
      · rwa [List.mem_singleton.1 hw]
    · rw [List.map_append, List.nodup_append_comm]
      exact List.nodup_cons.2 ⟨ht, h.distinct⟩

theorem resolves_nil (union : String) : Resolves union [] [] := .nil

theorem Resolves.typeTexts (h : Resolves union vs ps) :
    ps.map (fun q => some q.field.typeText) = vs.map Variant.memberText? := by
  have hmap : (vs.zipIdx 1).map (Variant.memberText? ∘ Prod.fst) = vs.map Variant.memberText? := by
    rw [← List.map_map, List.zipIdx_map_fst]
  rw [← hmap, ← List.forall₂_eq_eq_eq, List.forall₂_map_left_iff, List.forall₂_map_right_iff]
  exact h.flip.imp fun _ _ hx => Variant.Becomes.typeText hx

theorem Resolves.snoc (h : Resolves union vs ps) (hv : v.Becomes union (vs.length + 1) p) :
    Resolves union (vs ++ [v]) (ps ++ [p]) := by
  rw [Resolves, List.zipIdx_append, Nat.add_comm]
  exact List.rel_append h (.cons hv .nil)

/-- Either a list of variants is a legal definition, or a first one offends. -/
theorem legal_or_offends (union : String) (vs : List Variant) :
    LegalDefinition vs ∨ ∃ before v after e, vs = before ++ v :: after ∧ LegalDefinition before ∧
      v.Offends union before e := by
  -- from the end, since a variant is judged by all that come before it
  induction vs using List.reverseRecOn with
  | nil => exact .inl ⟨by simp, by simp, by simp⟩
  | append_singleton vs v ih =>
    obtain h | ⟨before, v', after, e, rfl, h, he⟩ := ih
    · obtain ⟨e, he⟩ | ⟨hl, ht, _, d, m, g, hv, -⟩ := v.offends_or_becomes union vs
      · exact .inr ⟨vs, v, [], e, rfl, h, he⟩
      · exact .inl (legalDefinition_snoc_iff.2 ⟨h, hl, ht, d, m, g, hv⟩)
    · exact .inr ⟨before, v', after ++ [v], e, by simp, h, he⟩

/-! ### Building the members -/

/-- As far as a definition is legal its members are built, and then it goes on after them. -/
theorem memberParts_append (h : Resolves union vs ps) (hl : LegalDefinition (vs ++ ws)) :
    ∃ qs, Resolves union (vs ++ ws) qs ∧ ∀ us,
      (memberParts union ps (vs.length + 1) (ws ++ us)).result =
        (memberParts union qs ((vs ++ ws).length + 1) us).result := by
  -- the variants move one by one from those to come to those that are built
  induction ws generalizing vs ps with
  | nil => exact ⟨ps, by rwa [List.append_nil], fun us => by simp⟩
  | cons v ws ih =>
    rw [List.append_cons] at hl ⊢
    obtain ⟨-, hlen, ht, d, m, g, hv⟩ := legalDefinition_snoc_iff.1 hl.of_append
    obtain ⟨p, hp⟩ : ∃ p, v.Becomes union (vs.length + 1) p := ⟨_, d, m, g, hv, rfl⟩
    obtain ⟨qs, hqs, hrest⟩ := ih (h.snoc hp) hl
    refine ⟨qs, hqs, fun us => ?_⟩
    rw [← hrest us, List.cons_append, memberParts, hp.member hlen ht h.typeTexts]
    simp [Traced.ofExcept, Traced.report, Traced.bind]

/-- What becomes of a legal definition. -/
theorem LegalDefinition.accepted (h : LegalDefinition vs) (union : String) :
    ∃ ps, Resolves union vs ps ∧
      (definitionModel union vs).result = .ok ⟨union, .definition, ps⟩ := by
  obtain ⟨ps, hps, hrest⟩ := memberParts_append (resolves_nil union) h
  refine ⟨ps, hps, ?_⟩
  have hparts := hrest []
  rw [List.append_nil] at hparts
  exact Traced.bind_eq_ok.2 ⟨ps, hparts, rfl⟩

/-- What becomes of a definition in which a variant offends. -/
theorem Variant.Offends.refused {before after : List Variant} {e : BuildError}
    (h : v.Offends union before e) (hl : LegalDefinition before) :
    (definitionModel union (before ++ v :: after)).result = .error e := by
  obtain ⟨ps, hps, hrest⟩ := memberParts_append (resolves_nil union) hl
  have hparts : (memberParts union [] 1 (before ++ v :: after)).result = .error e := by
    refine (hrest (v :: after)).trans ?_
    rw [memberParts, List.nil_append, h.member hps.typeTexts]
    rfl
  simp only [definitionModel, Traced.bind, hparts]

/-! ### The table of members -/

/-- The table has an entry for each variant, with its name and its tag. -/
theorem Resolves.entries (h : Resolves union vs ps) :
    (ps.filterMap Part.member?).map (fun e => (e.variant, e.tag)) =
      (vs.map Variant.name).zipIdx 1 := by
  unfold Resolves at h
  -- the rest of a list is tagged from a later number on
  generalize 1 = k at h ⊢
  induction vs generalizing k ps with
  | nil =>
    cases h
    rfl
  | cons v vs ih =>
    rw [List.zipIdx_cons] at h
    cases h with
    | cons hv hvs =>
      obtain ⟨d, m, g, -, rfl⟩ := hv
      simpa [Part.member?, List.zipIdx_cons] using ih (k + 1) hvs

theorem find_zipIdx (name : String) (vs : List Variant) (k : Nat) :
    (((vs.map Variant.name).zipIdx k).find? fun x => x.1 == name).map Prod.snd =
      (vs.findIdx? fun v => v.name == name).map (· + k) := by
  induction vs generalizing k with
  | nil => rfl
  | cons v vs ih =>
    rw [List.map_cons, List.zipIdx_cons, List.find?_cons, List.findIdx?_cons]
    by_cases hv : v.name == name
    · simp [hv]
    · simp only [hv, Bool.false_eq_true, ↓reduceIte, ih, Option.map_map]
      congr 1
      funext i
      simp only [Function.comp_apply]
      omega

/-- A variant is looked up at its first position. -/
theorem Resolves.tag {m : Model} (h : Resolves union vs m.parts) (name : String) :
    m.tag? name = (vs.findIdx? fun v => v.name == name).map (· + 1) := by
  rw [← find_zipIdx, ← h.entries, List.find?_map, Option.map_map]
  rfl

/-- **Union definitions.**  A list of variants is accepted as the definition of a union just if it
is legal.  Then its members are those of the variants, in the order of declaration and with the tags
`1, 2, …`, each with the field tree of its own type, which is built one level deep.  The table of
members has room for the tag of each and for `0`, and looks a name up at the first variant that has
it.  A list that is refused is refused for its earliest variant that offends. -/
theorem definition_exactly (union : String) (variants : List Variant) :
    ((∃ m, (definitionModel union variants).result = .ok m) ↔ LegalDefinition variants) ∧
    (∀ m, (definitionModel union variants).result = .ok m →
      m.name = union ∧ m.role = .definition ∧ Resolves union variants m.parts ∧
      m.members.map (fun e => (e.variant, e.tag)) = (variants.map Variant.name).zipIdx 1 ∧
      m.tagCount = variants.length + 1 ∧
      ∀ name, m.tag? name = (variants.findIdx? fun v => v.name == name).map (· + 1)) ∧
    ∀ e, (definitionModel union variants).result = .error e ↔
      ∃ before v after, variants = before ++ v :: after ∧ LegalDefinition before ∧
        v.Offends union before e := by
  obtain hl | ⟨before, v, after, e, rfl, hl, he⟩ := legal_or_offends union variants
  · obtain ⟨ps, hps, hok⟩ := hl.accepted union
    refine ⟨iff_of_true ⟨_, hok⟩ hl, fun m hm => ?_, fun e => ⟨fun he => ?_, ?_⟩⟩
    · cases hok.symm.trans hm
      have hentries := hps.entries
      have hlen := congrArg List.length hentries
      rw [List.length_map, List.length_zipIdx, List.length_map] at hlen
      exact ⟨rfl, rfl, hps, hentries, congrArg Nat.succ hlen, hps.tag⟩
    · cases hok.symm.trans he
    · rintro ⟨before, v, after, rfl, hbefore, he⟩
      cases hok.symm.trans (he.refused hbefore)
  · have herror : (definitionModel union (before ++ v :: after)).result = .error e :=
      he.refused hl
    refine ⟨iff_of_false ?_ fun hlegal => ?_, fun m hm => ?_, fun e' => ⟨fun he' => ?_, ?_⟩⟩
    · rintro ⟨m, hm⟩
      cases herror.symm.trans hm
    · obtain ⟨ps, -, hok⟩ := hlegal.accepted union
      cases herror.symm.trans hok
    · cases herror.symm.trans hm
    · cases herror.symm.trans he'
      exact ⟨before, v, after, rfl, hl, he⟩
    · rintro ⟨before', v', after', heq, hl', he'⟩
      rw [heq]
      exact he'.refused hl'

/-- A variant that wraps a type. -/
def Variant.of (name : String) (t : TypeExpr) : Variant := ⟨name, .tuple [{ type := t }], false, []⟩

theorem Variant.wraps_of {name : String} {t : TypeExpr} {g : Field}
    (h : Field.ofType t 1 = .ok g) : (Variant.of name t).Wraps { type := t } {} g :=
  ⟨rfl, rfl, rfl, rfl, h, .inl rfl⟩

/-- The variants `Side((u32))` and `Label(String)`. -/
def sides : List Variant := [.of "Side" (.paren (.named "u32")), .of "Label" (.named "String")]

/-- Two types are told apart, and a third one is found to be the first. -/
theorem definition_exactly_sides :
    (∃ m, (definitionModel "ShapeDef" sides).result = .ok m ∧ m.tagCount = 3 ∧
      m.tag? "Label" = some 2 ∧ m.tag? "Edge" = none) ∧
    (definitionModel "ShapeDef" (sides ++ [.of "Edge" (.named "u32")])).result =
      .error (.duplicateMember "u32" "ShapeDef") := by
  have hlegal : LegalDefinition sides := by
    refine ⟨by decide, fun v hv => ?_, by decide +kernel⟩
    simp only [sides, List.mem_cons, List.not_mem_nil, or_false] at hv
    rcases hv with rfl | rfl
    · exact ⟨_, _, _, Variant.wraps_of rfl⟩
    · exact ⟨_, _, _, Variant.wraps_of rfl⟩
  refine ⟨?_, ?_⟩
  · obtain ⟨haccept, hmodel, -⟩ := definition_exactly "ShapeDef" sides
    obtain ⟨m, hm⟩ := haccept.2 hlegal
    obtain ⟨-, -, -, -, hcount, htag⟩ := hmodel m hm
    exact ⟨m, hm, hcount, htag "Label", htag "Edge"⟩
  · obtain ⟨-, -, herror⟩ := definition_exactly "ShapeDef" (sides ++ [.of "Edge" (.named "u32")])
    have hoffends : (Variant.of "Edge" (.named "u32")).Offends "ShapeDef" sides
        (.duplicateMember (TypeExpr.named "u32").bare.text "ShapeDef") :=
      .duplicate (Variant.wraps_of rfl) (by decide) (by decide +kernel)
    rw [show (TypeExpr.named "u32").bare.text = "u32" by decide +kernel] at hoffends
    exact (herror _).2 ⟨sides, _, [], rfl, hlegal, hoffends⟩

end Marshal
