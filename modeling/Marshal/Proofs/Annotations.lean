import Marshal.Derive
import Marshal.Proofs.Parts

/-!
# Malformed annotations

An annotation is malformed if it has a key that is not known where it stands, a cast that does not
name a numeric wire kind, a second cast of one field, a skipped capability that does not exist, or a
second role of one item.  `Item.Flawed` says that there is such an annotation on an item or on one
of its fields, those of its variants included, and `Item.derive_flawed` that such an item is
refused.  The annotations that stand on a variant itself are never read
(`Item.derive_unannotated`), so that a malformed one passes there.
-/

namespace Marshal

/-! ### Going through entries -/

/-- The entries of an attribute, if it is one of those that are read. -/
def Attribute.entries (a : Attribute) : List AttrEntry :=
  if a.path = Attribute.own then
    match a.body with
    | .entries es => es
    | .bare | .value => []
  else []

/-- The entry has one of the keys. -/
def AttrEntry.hasKey (keys : List String) : AttrEntry → Bool
  | keyed key _ => keys.contains key
  | literal => false

section Fold

variable {σ : Type} {step : σ → String → AttrValue → Except BuildError σ} {s s' : σ}

theorem AttrEntry.fold_cons_eq_ok {e : AttrEntry} {es : List AttrEntry} :
    AttrEntry.fold step s (e :: es) = .ok s' ↔
      ∃ key value t, e = keyed key value ∧ step s key value = .ok t ∧
        AttrEntry.fold step t es = .ok s' := by
  cases e with
  | literal => simp [fold]
  | keyed key value => cases h : step s key value <;> simp [fold, h]

theorem AttrEntry.fold_append {es fs : List AttrEntry} {t : σ}
    (hes : AttrEntry.fold step s es = .ok t) (hfs : AttrEntry.fold step t fs = .ok s') :
    AttrEntry.fold step s (es ++ fs) = .ok s' := by
  induction es generalizing s with
  | nil =>
    cases hes
    exact hfs
  | cons e es ih =>
    obtain ⟨key, value, u, he, hu, hes⟩ := fold_cons_eq_ok.1 hes
    exact fold_cons_eq_ok.2 ⟨key, value, u, he, hu, ih hes⟩

theorem Attribute.fold_entries {as : List Attribute} (h : Attribute.fold step s as = .ok s') :
    AttrEntry.fold step s (as.flatMap Attribute.entries) = .ok s' := by
  induction as generalizing s with
  | nil => exact h
  | cons a as ih =>
    simp only [fold] at h
    rw [List.flatMap_cons]
    split_ifs at h with hown
    · split at h
      · cases h
      · cases h
      · rename_i es hbody
        split at h
        · cases h
        · rename_i t ht
          rw [show a.entries = es by simp [entries, hown, hbody]]
          exact AttrEntry.fold_append ht (ih h)
    · rw [show a.entries = [] by simp [entries, hown]]
      exact ih h

/-- Every entry was taken up at some point. -/
theorem AttrEntry.exists_step {es : List AttrEntry} (h : AttrEntry.fold step s es = .ok s')
    {e : AttrEntry} (he : e ∈ es) :
    ∃ key value t t', e = keyed key value ∧ step t key value = .ok t' := by
  induction es generalizing s with
  | nil => cases he
  | cons a es ih =>
    obtain ⟨key, value, t, ha, ht, h⟩ := fold_cons_eq_ok.1 h
    rcases List.mem_cons.1 he with rfl | he
    · exact ⟨key, value, s, t, ha, ht⟩
    · exact ih h he

/-- Where an entry with one of the keys is only taken up while something is not yet taken, and takes
it, there is at most one such entry. -/
theorem AttrEntry.countP_hasKey_le (keys : List String) (taken : σ → Bool)
    (hstep : ∀ t t' key value, step t key value = .ok t' →
      (keys.contains key).toNat + (taken t).toNat ≤ (taken t').toNat)
    {es : List AttrEntry} (h : AttrEntry.fold step s es = .ok s') :
    es.countP (hasKey keys) + (taken s).toNat ≤ (taken s').toNat := by
  induction es generalizing s with
  | nil =>
    cases h
    simp
  | cons a es ih =>
    obtain ⟨key, value, t, rfl, ht, h⟩ := fold_cons_eq_ok.1 h
    have hkey := hstep s t key value ht
    have hrest := ih h
    rw [List.countP_cons]
    by_cases hk : key ∈ keys <;> simp [hasKey, hk] at hkey ⊢ <;> omega

end Fold

/-! ### Fields -/

/-- The names of the wire kinds that a field can be cast to. -/
def Wire.castNames : List String :=
  ["u8", "i8", "u16", "i16", "u32", "i32", "u64", "i64", "usize", "isize", "f32", "f64",
    "fixed_u16", "fixed_i16", "fixed_u32", "fixed_i32", "fixed_u64", "fixed_i64"]

theorem Wire.mem_castNames {name : String} {w : Wire} (h : ofCastName? name = some w)
    (hw : w.numeric) : name ∈ castNames := by
  unfold ofCastName? at h
  split at h
  · rename_i w' hname
    cases h
    obtain ⟨s, hs, rfl⟩ := Option.map_eq_some_iff.1 hname
    have hmem : s ∈ Scalar.all := List.mem_of_find?_eq_some hs
    have hs' : s.name = name := by simpa using List.find?_some hs
    have hall : ∀ s ∈ Scalar.all, s.wire.numeric → s.name ∈ castNames := by decide
    exact hs' ▸ hall s hmem hw
  · obtain ⟨l, l', hl, -⟩ := List.lookup_eq_some_iff.1 h
    have hmem : (name, w) ∈ fixedKinds := by simp [hl]
    have hall : ∀ p ∈ fixedKinds, p.1 ∈ castNames := by decide
    exact hall _ hmem

example : Wire.castNames.all fun name => (Wire.ofCastName? name).any Wire.numeric := by decide

namespace Modifiers

theorem skipAll_eq_ok {m m' : Modifiers} {cs : List String} (h : m.skipAll cs = .ok m') :
    m'.cast = m.cast ∧ ∀ c ∈ cs, c ∈ ["serdes", "equality"] := by
  induction cs generalizing m with
  | nil =>
    cases h
    exact ⟨rfl, List.forall_mem_nil _⟩
  | cons c cs ih =>
    simp only [skipAll, skip] at h
    split_ifs at h with hserdes hequality
    · obtain ⟨hcast, hcs⟩ := ih h
      exact ⟨hcast, List.forall_mem_cons.2 ⟨by simp [hserdes], hcs⟩⟩
    · obtain ⟨hcast, hcs⟩ := ih h
      exact ⟨hcast, List.forall_mem_cons.2 ⟨by simp [hequality], hcs⟩⟩

theorem step_eq_ok {m m' : Modifiers} {key : String} {value : AttrValue}
    (h : m.step key value = .ok m') :
    (key = "cast" ∧ (∃ name ∈ Wire.castNames, value = .string name) ∧ m.cast = none ∧
      m'.cast.isSome) ∨
    (key = "skip" ∧ m'.cast = m.cast ∧
      ∃ list, value = .string list ∧ ∀ c ∈ Text.pieces list, c ∈ ["serdes", "equality"]) := by
  unfold step at h
  split_ifs at h with hcast hskip
  · cases value with
    | string name =>
      simp only [AttrValue.string?, castTo] at h
      split_ifs at h with hsome
      split at h
      · cases h
      · rename_i w hw
        split_ifs at h with hnumeric
        cases h
        exact .inl ⟨hcast, ⟨name, Wire.mem_castNames hw hnumeric, rfl⟩,
          Option.not_isSome_iff_eq_none.1 hsome, rfl⟩
    | none | path _ | number | list => cases h
  · cases value with
    | string list =>
      simp only [AttrValue.string?] at h
      obtain ⟨hkept, hcs⟩ := skipAll_eq_ok h
      exact .inr ⟨hskip, hkept, list, rfl, hcs⟩
    | none | path _ | number | list => cases h

theorem step_cast (m m' : Modifiers) (key : String) (value : AttrValue)
    (h : m.step key value = .ok m') :
    (["cast"].contains key).toNat + m.cast.isSome.toNat ≤ m'.cast.isSome.toNat := by
  rcases step_eq_ok h with ⟨rfl, -, hnone, hsome⟩ | ⟨rfl, hkept, -⟩
  · simp [hnone, hsome]
  · simp [hkept]

end Modifiers

/-- There is a malformed entry among those on a field. -/
inductive FieldFlaw (es : List AttrEntry) : Prop where
  | unknownKey {key value} (h : .keyed key value ∈ es) (hkey : key ∉ ["cast", "skip"])
  /-- A cast that does not name a numeric wire kind. -/
  | cast {value} (h : .keyed "cast" value ∈ es)
      (hvalue : ∀ name ∈ Wire.castNames, value ≠ .string name)
  | secondCast (h : 2 ≤ es.countP (AttrEntry.hasKey ["cast"]))
  /-- A capability that cannot be skipped. -/
  | skip {list c} (h : .keyed "skip" (.string list) ∈ es) (hc : c ∈ Text.pieces list)
      (hunknown : c ∉ ["serdes", "equality"])

theorem Modifiers.not_fieldFlaw_of_read {attributes : List Attribute} {m : Modifiers}
    (h : Modifiers.read attributes = .ok m) :
    ¬ FieldFlaw (attributes.flatMap Attribute.entries) := by
  have hfold := Attribute.fold_entries h
  intro hflaw
  cases hflaw with
  | unknownKey hmem hkey =>
    obtain ⟨_, _, t, t', heq, ht⟩ := AttrEntry.exists_step hfold hmem
    cases heq
    rcases step_eq_ok ht with ⟨rfl, -⟩ | ⟨rfl, -⟩
    · simp at hkey
    · simp at hkey
  | cast hmem hvalue =>
    obtain ⟨_, _, t, t', heq, ht⟩ := AttrEntry.exists_step hfold hmem
    cases heq
    rcases step_eq_ok ht with ⟨-, ⟨name, hname, rfl⟩, -⟩ | ⟨hkey, -⟩
    · exact hvalue name hname rfl
    · simp at hkey
  | secondCast hcount =>
    have htaken := AttrEntry.countP_hasKey_le ["cast"] (fun m : Modifiers => m.cast.isSome)
      step_cast hfold
    have := Bool.toNat_le m.cast.isSome
    omega
  | skip hmem hc hunknown =>
    obtain ⟨_, _, t, t', heq, ht⟩ := AttrEntry.exists_step hfold hmem
    cases heq
    rcases step_eq_ok ht with ⟨hkey, -⟩ | ⟨-, -, _, heq, hcs⟩
    · simp at hkey
    · cases heq
      exact hunknown (hcs _ hc)

/-! ### Items -/

/-- The keys that say what an item becomes. -/
def Role.keys : List String := ["struct", "def", "union"]

namespace ItemSettings

theorem takeRole_eq_ok {o o' : ItemSettings} {d : Role} (h : o.takeRole d = .ok o') :
    o.role.isNone ∧ o'.role = d := by
  unfold takeRole at h
  split_ifs at h with hnone
  cases h
  exact ⟨hnone, rfl⟩

theorem takeRoleAlone_eq_ok {o o' : ItemSettings} {d : Role} {value : AttrValue}
    (h : o.takeRoleAlone d value = .ok o') : o.role.isNone ∧ o'.role = d := by
  unfold takeRoleAlone at h
  split at h
  · cases h
  · rename_i o₁ ho₁
    split_ifs at h
    cases h
    exact takeRole_eq_ok ho₁

theorem step_eq_ok {o o' : ItemSettings} {key : String} {value : AttrValue}
    (h : o.step key value = .ok o') :
    (key ∈ Role.keys ∧ o.role.isNone ∧ o'.role.isNone = false) ∨
      (key = "crate" ∧ o'.role = o.role) := by
  unfold step at h
  split_ifs at h with hstruct hdef hunion hcrate
  · obtain ⟨hnone, hrole⟩ := takeRoleAlone_eq_ok h
    exact .inl ⟨by simp [Role.keys, hstruct], hnone, by rw [hrole]; rfl⟩
  · obtain ⟨hnone, hrole⟩ := takeRoleAlone_eq_ok h
    exact .inl ⟨by simp [Role.keys, hdef], hnone, by rw [hrole]; rfl⟩
  · split at h
    · cases h
    · obtain ⟨hnone, hrole⟩ := takeRole_eq_ok h
      exact .inl ⟨by simp [Role.keys, hunion], hnone, by rw [hrole]; rfl⟩
  · split at h
    · cases h
    · split at h
      · cases h
      · cases h
        exact .inr ⟨hcrate, rfl⟩

theorem step_role (o o' : ItemSettings) (key : String) (value : AttrValue)
    (h : o.step key value = .ok o') :
    (Role.keys.contains key).toNat + (!o.role.isNone).toNat ≤ (!o'.role.isNone).toNat := by
  rcases step_eq_ok h with ⟨hkey, hnone, hsome⟩ | ⟨rfl, hkept⟩
  · simp [hkey, hnone, hsome]
  · simp [hkept, Role.keys]

end ItemSettings

/-- There is a malformed entry among those on an item. -/
inductive ItemFlaw (es : List AttrEntry) : Prop where
  | unknownKey {key value} (h : .keyed key value ∈ es) (hkey : key ∉ "crate" :: Role.keys)
  | secondRole (h : 2 ≤ es.countP (AttrEntry.hasKey Role.keys))

theorem ItemSettings.not_itemFlaw_of_read {attributes : List Attribute} {o : ItemSettings}
    (h : ItemSettings.read attributes = .ok o) :
    ¬ ItemFlaw (attributes.flatMap Attribute.entries) := by
  have hfold := Attribute.fold_entries h
  intro hflaw
  cases hflaw with
  | unknownKey hmem hkey =>
    obtain ⟨_, _, t, t', heq, ht⟩ := AttrEntry.exists_step hfold hmem
    cases heq
    rcases step_eq_ok ht with ⟨hrole, -⟩ | ⟨rfl, -⟩
    · exact hkey (List.mem_cons_of_mem _ hrole)
    · exact hkey List.mem_cons_self
  | secondRole hcount =>
    have htaken := AttrEntry.countP_hasKey_le Role.keys (fun o : ItemSettings => !o.role.isNone)
      step_role hfold
    have := Bool.toNat_le (!o.role.isNone)
    omega

/-! ### Refusal -/

/-- Whichever way a field is built from a declaration, its annotations are read. -/
theorem FieldDecl.Builds.read {d : FieldDecl} {f : Field} (h : d.Builds f) :
    ∃ m, Modifiers.read d.attributes = .ok m := by
  cases h with
  | field h | member _ h =>
    obtain ⟨_, -, h⟩ := Field.build_eq_ok h
    obtain ⟨m, hm, -⟩ := Field.finish_eq_ok h
    exact ⟨m, hm⟩
  | synonym _ h =>
    obtain ⟨m, hm, -⟩ := Field.finish_eq_ok h
    exact ⟨m, hm⟩

namespace Item

/-- There is a malformed annotation on the item or on one of its fields. -/
inductive Flawed (item : Item) : Prop where
  | item (h : ItemFlaw (item.attributes.flatMap Attribute.entries))
  | field {d} (hd : d ∈ item.fieldDecls)
      (h : FieldFlaw (d.attributes.flatMap Attribute.entries))

theorem not_flawed_of_derive {item : Item} {is : List Implementation}
    (h : item.derive.result = .ok is) : ¬ item.Flawed := by
  obtain ⟨o, ho, h⟩ := Traced.bind_eq_ok.1 h
  obtain ⟨m, hm, -⟩ := Traced.bind_eq_ok.1 h
  intro hflaw
  cases hflaw with
  | item hitem => exact ItemSettings.not_itemFlaw_of_read ho hitem
  | field hd hfield =>
    have hread : ∀ d ∈ item.fieldDecls, ∃ m, Modifiers.read d.attributes = .ok m :=
      ((List.forall₂_and_left _ _).1 ((builtFrom_modelAs hm).imp fun _ _ hb => ⟨hb.read, hb⟩)).1
    obtain ⟨_, hread⟩ := hread _ hd
    exact Modifiers.not_fieldFlaw_of_read hread hfield

/-- The item without the annotations that stand on its variants. -/
def unannotated (item : Item) : Item :=
  match item.body with
  | .enumeration variants =>
    { item with body := .enumeration (variants.map fun v => { v with attributes := [] }) }
  | _ => item

theorem memberParts_unannotated (union : String) (before : List Part) (tag : Nat)
    (vs : List Variant) :
    memberParts union before tag (vs.map fun v => { v with attributes := [] }) =
      memberParts union before tag vs := by
  induction vs generalizing before tag with
  | nil => rfl
  | cons v vs ih =>
    simp only [List.map_cons, memberParts, ih]
    rfl

theorem modelAs_unannotated (item : Item) (role : Role) :
    item.unannotated.modelAs role = item.modelAs role := by
  obtain ⟨name, attributes, generics, body⟩ := item
  cases body with
  | record | untagged => rfl
  | enumeration variants =>
    cases role with
    | definition => simp only [unannotated, modelAs, definitionModel, memberParts_unannotated]
    | none | record | holder => rfl

theorem derive_unannotated (item : Item) : item.unannotated.derive = item.derive := by
  have hattributes : item.unannotated.attributes = item.attributes := by
    unfold unannotated
    split <;> rfl
  unfold derive
  simp only [hattributes, modelAs_unannotated]

/-- A malformed annotation on an item or on one of its fields is fatal, in whichever role the item
is read.  What stands on a variant itself decides nothing. -/
theorem derive_flawed (item : Item) :
    (item.Flawed → ∃ e, item.derive.result = .error e) ∧ item.unannotated.derive = item.derive := by
  refine ⟨fun hflaw => ?_, derive_unannotated item⟩
  cases h : item.derive.result with
  | error e => exact ⟨e, rfl⟩
  | ok is => exact absurd hflaw (not_flawed_of_derive h)

/-- A union of one member, with annotations on the variant and on the field that it wraps. -/
def single (onVariant onField : List Attribute) : Item where
  name := "Single"
  attributes := [⟨Attribute.own, .entries [.keyed "def" .none]⟩]
  body := .enumeration [
    { name := "Only"
      fields := .tuple [{ type := .named "u16", attributes := onField }]
      attributes := onVariant }]

/-- Two casts of one field, each in an attribute of its own. -/
def twoCasts : List Attribute :=
  [⟨Attribute.own, .entries [.keyed "cast" (.string "u8")]⟩,
    ⟨Attribute.own, .entries [.keyed "cast" (.string "u32")]⟩]

theorem derive_flawed_single :
    (single [] twoCasts).Flawed ∧ ∃ e, (single [] twoCasts).derive.result = .error e := by
  have hflaw : (single [] twoCasts).Flawed := .field List.mem_cons_self (.secondCast (by decide))
  exact ⟨hflaw, (derive_flawed _).1 hflaw⟩

/-- An annotation with a key that is known nowhere. -/
def bogus : Attribute := ⟨Attribute.own, .entries [.keyed "bogus" .none]⟩

/-- On a variant an annotation passes that is malformed wherever it would be read. -/
theorem derive_single_of_flawed_variant :
    FieldFlaw bogus.entries ∧ ItemFlaw bogus.entries ∧
      ∃ is, (single [bogus] []).derive.result = .ok is :=
  ⟨.unknownKey List.mem_cons_self (by decide), .unknownKey List.mem_cons_self (by decide), _, rfl⟩

end Item

end Marshal
