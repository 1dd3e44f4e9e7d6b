import Marshal.Layout
import Mathlib.Data.List.Forall2

/-!
# Members and their tags

The variants of an accepted union definition are its members, in the order of declaration, and the
member at position `i` carries the tag `i + 1`.  A definition is accepted only with tags that fit a
byte, so it has at most 255 members.

`Variant.Declares` says what a member is to its variant and `Item.Defines` what members are to a
definition.  `Package.defines_of_find` shows that each holder of a package has the members of a
definition among the items of the package.
-/

namespace Marshal

theorem Traced.bind_eq_ok {α β : Type} {x : Traced α} {f : α → Traced β} {b : β} :
    (x.bind f).result = .ok b ↔ ∃ a, x.result = .ok a ∧ (f a).result = .ok b := by
  unfold bind
  rcases h : x.result with e | a
  · simp
  · simp

theorem forall₂_of_allSome {α β : Type} {f : α → Option β} {as : List α} {bs : List β}
    (h : allSome (as.map f) = some bs) : List.Forall₂ (fun a b => f a = some b) as bs := by
  induction as generalizing bs with
  | nil =>
    cases h
    exact .nil
  | cons a as ih =>
    rw [List.map_cons] at h
    cases ha : f a with
    | none =>
      rw [ha] at h
      cases h
    | some b =>
      rw [ha] at h
      obtain ⟨bs, hbs, rfl⟩ := Option.map_eq_some_iff.1 h
      exact .cons ha (ih hbs)

/-! ### Members of a definition -/

/-- The member `m` is named after the variant of the union and has the shape of the type that the
variant wraps. -/
def Variant.Declares (vocabulary : Vocabulary) (union : String) (v : Variant) (m : Member) : Prop :=
  m.name = v.name ∧ ∃ d f, v.content? = some d ∧
    Field.build (union ++ "::" ++ v.name) d 1 = .ok f ∧ f.shape? vocabulary = some m.shape

/-- The item is an accepted union definition with the members `u`: they are those of its variants
in the order of declaration, and their tags count from `1`. -/
structure Item.Defines (vocabulary : Vocabulary) (item : Item) (u : Members) : Prop where
  accepted : ∃ variants model, item.body = .enumeration variants ∧ item.model.result = .ok model ∧
    List.Forall₂ (Variant.Declares vocabulary item.name) variants u ∧
    model.members.map MemberEntry.tag = List.range' 1 u.length ∧ model.tagCount = u.size
  length_le : u.length ≤ 255

/-- The entry of the table of members is made for the variant. -/
def Variant.Enters (union : String) (v : Variant) (e : MemberEntry) : Prop :=
  e.variant = v.name ∧ ∃ d, v.content? = some d ∧
    Field.build (union ++ "::" ++ v.name) d 1 = .ok e.inner

theorem Variant.member_eq_ok {union : String} {before : List Part} {tag : Nat} {v : Variant}
    {p : Part} (h : v.member union before tag = .ok p) :
    tag ≤ 255 ∧ ∃ d f, v.content? = some d ∧ Field.build (union ++ "::" ++ v.name) d 1 = .ok f ∧
      p = ⟨.name v.name, .member f.info tag 0 f⟩ := by
  unfold Variant.member at h
  split at h
  · cases h
  split at h
  · cases h
  rename_i d hd
  split at h
  · cases h
  rename_i htag
  split at h
  · cases h
  split at h
  · cases h
  split at h
  · cases h
  rename_i f hf
  split at h
  · cases h
  cases h
  exact ⟨Nat.le_of_not_lt htag, d, f, hd, hf, rfl⟩

/-- Members are added one for each variant, with the tags that follow. -/
theorem memberParts_eq_ok {union : String} {before ps : List Part} {tag : Nat} {vs : List Variant}
    (h : (memberParts union before tag vs).result = .ok ps) :
    ∃ es, ps.filterMap Part.member? = before.filterMap Part.member? ++ es ∧
      List.Forall₂ (Variant.Enters union) vs es ∧
      es.map MemberEntry.tag = List.range' tag vs.length ∧ (tag ≤ 256 → tag + vs.length ≤ 256) := by
  induction vs generalizing before tag with
  | nil =>
    cases h
    exact ⟨[], by simp, .nil, rfl, id⟩
  | cons v vs ih =>
    obtain ⟨p, hp, h⟩ := Traced.bind_eq_ok.1 h
    obtain ⟨_, -, h⟩ := Traced.bind_eq_ok.1 h
    obtain ⟨htag, d, f, hd, hf, rfl⟩ := Variant.member_eq_ok hp
    obtain ⟨es, hes, hall, htags, hle⟩ := ih h
    refine ⟨⟨v.name, tag, 0, f⟩ :: es, ?_, .cons ⟨rfl, d, hd, hf⟩ hall, ?_, fun _ => ?_⟩
    · simp [hes, Part.member?]
    · simp [htags, List.range'_succ]
    · have := hle (Nat.succ_le_succ htag)
      simp only [List.length_cons]
      omega

theorem recordModel_role {name : String} {fields : FieldList} {m : Model}
    (h : (recordModel name fields).result = .ok m) : m.role = .record := by
  obtain ⟨ps, -, h⟩ := Traced.bind_eq_ok.1 h
  cases h
  rfl

theorem holderModel_role {name : String} {definition : Path} {fields : List FieldDecl} {m : Model}
    (h : (holderModel name definition fields).result = .ok m) : m.role = .holder definition := by
  unfold holderModel at h
  split at h
  · obtain ⟨o, -, h⟩ := Traced.bind_eq_ok.1 h
    split_ifs at h
    · obtain ⟨p, -, h⟩ := Traced.bind_eq_ok.1 h
      split_ifs at h
      · cases h
        rfl
      · cases h
    · cases h
  · cases h

/-- A model in the role of a definition is made from the variants of an item. -/
theorem Item.model_definition {item : Item} {m : Model} (h : item.model.result = .ok m)
    (hm : m.role = .definition) :
    ∃ variants, item.body = .enumeration variants ∧
      (memberParts item.name [] 1 variants).result = .ok m.parts := by
  obtain ⟨o, -, h⟩ := Traced.bind_eq_ok.1 h
  unfold Item.modelAs at h
  split_ifs at h
  · split at h
    · cases h
    · rw [holderModel_role h] at hm
      cases hm
    · rw [recordModel_role h] at hm
      cases hm
    · rw [recordModel_role h] at hm
      cases hm
    · rename_i variants hbody _
      obtain ⟨ps, hps, h⟩ := Traced.bind_eq_ok.1 h
      cases h
      exact ⟨variants, hbody, hps⟩
    · cases h
    · cases h
  · cases h

theorem MemberEntry.member?_eq_some {vocabulary : Vocabulary} {e : MemberEntry} {m : Member}
    (h : e.member? vocabulary = some m) :
    m.name = e.variant ∧ e.inner.shape? vocabulary = some m.shape := by
  unfold MemberEntry.member? at h
  split at h
  · cases h
  · rename_i shape hshape
    cases h
    exact ⟨rfl, hshape⟩

theorem Variant.Enters.declares {vocabulary : Vocabulary} {union : String} {v : Variant}
    {e : MemberEntry} {m : Member} (h : v.Enters union e) (hm : e.member? vocabulary = some m) :
    v.Declares vocabulary union m := by
  obtain ⟨hname, d, hd, hf⟩ := h
  obtain ⟨hmname, hshape⟩ := MemberEntry.member?_eq_some hm
  exact ⟨hmname.trans hname, d, e.inner, hd, hf, hshape⟩

theorem Variant.forall₂_declares {vocabulary : Vocabulary} {union : String} {vs : List Variant}
    {es : List MemberEntry} {u : Members} (h : List.Forall₂ (Variant.Enters union) vs es)
    (hu : List.Forall₂ (fun e m => e.member? vocabulary = some m) es u) :
    List.Forall₂ (Variant.Declares vocabulary union) vs u := by
  induction h generalizing u with
  | nil =>
    cases hu
    exact .nil
  | cons hv _ ih =>
    cases hu with
    | cons he hes => exact .cons (hv.declares he) (ih hes)

/-- What is added to a package for a model in the role of a definition are the members that the
item defines. -/
theorem Item.defines_of_model {vocabulary : Vocabulary} {item : Item} {m : Model} {u : Members}
    (h : item.model.result = .ok m) (hm : m.role = .definition)
    (hu : allSome (m.members.map (MemberEntry.member? vocabulary)) = some u) :
    item.Defines vocabulary u := by
  obtain ⟨variants, hbody, hparts⟩ := Item.model_definition h hm
  obtain ⟨es, hes, henters, htags, hle⟩ := memberParts_eq_ok hparts
  obtain rfl : m.members = es := hes
  have hmembers := forall₂_of_allSome hu
  have hlen : variants.length = u.length := henters.length_eq.trans hmembers.length_eq
  rw [hlen] at htags hle
  refine ⟨⟨variants, m, hbody, h, Variant.forall₂_declares henters hmembers, htags,
    congrArg Nat.succ hmembers.length_eq⟩, ?_⟩
  have := hle (by decide)
  omega

/-! ### Holders of a package -/

namespace Package

/-- All members in a package, those of its unions and those of its holders, are such that `D` holds
of them. -/
structure AllMembers (D : Members → Prop) (p : Package) : Prop where
  unions : ∀ name u, (name, u) ∈ p.unions → D u
  holders : ∀ name u, (name, Decl.holder u) ∈ p.schema.decls → D u

variable {vocabulary : Vocabulary} {D : Members → Prop} {p q : Package}

theorem mem_of_lookup {β : Type} {k : String} {b : β} {l : List (String × β)}
    (h : l.lookup k = some b) : (k, b) ∈ l := by
  obtain ⟨l₁, l₂, rfl, -⟩ := List.lookup_eq_some_iff.1 h
  simp

/-- A model adds the members that it defines, or a holder for members that are there, or none. -/
theorem AllMembers.add {m : Model} (h : p.AllMembers D)
    (hD : m.role = .definition →
      ∀ u, allSome (m.members.map (MemberEntry.member? vocabulary)) = some u → D u)
    (hq : p.add? vocabulary m = some q) : q.AllMembers D := by
  unfold add? at hq
  split at hq
  · rename_i hrole
    obtain ⟨u, hu, rfl⟩ := Option.map_eq_some_iff.1 hq
    refine ⟨fun name u' hmem => ?_, h.holders⟩
    rcases List.mem_append.1 hmem with hmem | hmem
    · exact h.unions name u' hmem
    · cases List.mem_singleton.1 hmem
      exact hD hrole _ hu
  · obtain ⟨u, hu, rfl⟩ := Option.map_eq_some_iff.1 hq
    obtain ⟨ident, -, hu⟩ := Option.bind_eq_some_iff.1 hu
    refine ⟨h.unions, fun name u' hmem => ?_⟩
    rcases List.mem_append.1 hmem with hmem | hmem
    · exact h.holders name u' hmem
    · cases List.mem_singleton.1 hmem
      exact h.unions ident _ (mem_of_lookup hu)
  all_goals
    obtain ⟨slots, -, rfl⟩ := Option.map_eq_some_iff.1 hq
    refine ⟨h.unions, fun name u' hmem => ?_⟩
    rcases List.mem_append.1 hmem with hmem | hmem
    · exact h.holders name u' hmem
    · cases List.mem_singleton.1 hmem

theorem AllMembers.addItems {items : List Item} (h : p.AllMembers D)
    (hD : ∀ item ∈ items, ∀ m, item.model.result = .ok m → m.role = .definition →
      ∀ u, allSome (m.members.map (MemberEntry.member? vocabulary)) = some u → D u)
    (hq : p.addItems? vocabulary items = some q) : q.AllMembers D := by
  induction items generalizing p with
  | nil =>
    cases hq
    exact h
  | cons item items ih =>
    rw [addItems?] at hq
    split at hq
    · cases hq
    · rename_i m hm
      split at hq
      · cases hq
      · rename_i p' hp'
        exact ih (h.add (hD item List.mem_cons_self m hm) hp')
          (fun i hi => hD i (List.mem_cons_of_mem _ hi)) hq

/-- A holder of a package has the members of a definition among its items. -/
theorem defines_of_find {items : List Item} {name : String} {u : Members}
    (hp : ofItems? vocabulary items = some p) (hf : p.schema.find? name = some (.holder u)) :
    ∃ item ∈ items, item.Defines vocabulary u := by
  have hempty : AllMembers (fun u => ∃ item ∈ items, item.Defines vocabulary u)
      { schema := { defaults := vocabulary.defaults } } := ⟨by simp, by simp⟩
  have hall := hempty.addItems
    (fun item hi m hm hrole u hu => ⟨item, hi, Item.defines_of_model hm hrole hu⟩) hp
  exact hall.holders name u (mem_of_lookup hf)

end Package

end Marshal
