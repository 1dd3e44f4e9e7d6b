import Marshal.Catalogue.Basic
import Marshal.Proofs.Same
import Marshal.Proofs.Occurrence

/-!
# Equality is a partial equivalence

`Schema.Comparable` says that a value has a shape as far as it is compared: no two keys of a map
count as the same, and what a slot holds that is left out of the comparison is left open.  On such
values equality is a partial equivalence (`Schema.equals_partialEquality`):

* It is symmetric, as two maps of one size hold the same keys once the second holds those of the
  first.
* It is transitive.
* A value is equal to itself if and only if no compared leaf is unequal to itself, which for
  floating point numbers means that no NaN is compared (`Schema.Comparable.same_self_iff`).
-/

namespace Marshal

/-! ### Leaves -/

/-- The datum is a NaN of a floating point type. -/
def Scalar.isNaN : Scalar → Datum → Bool
  | float f, .float bits => f.isNaN bits
  | _, _ => false

namespace Scalar

theorem same_comm (s : Scalar) (d e : Datum) : s.same d e = s.same e d := by
  cases s with
  | float f =>
    cases d with
    | float a =>
      cases e with
      | float b =>
        simp only [same, FloatType.same]
        rw [Bool.and_comm (!f.isNaN a), BEq.comm, Bool.and_comm (f.isZero a)]
      | _ => exact BEq.comm
    | _ => cases e <;> exact BEq.comm
  | _ => exact BEq.comm

theorem same_trans {s : Scalar} {d e g : Datum} (hde : s.same d e = true)
    (heg : s.same e g = true) : s.same d g = true := by
  cases s with
  | float f =>
    cases d with
    | float a =>
      cases e with
      | float b =>
        cases g with
        | float c =>
          simp only [same, FloatType.same, Bool.and_eq_true, Bool.or_eq_true, beq_iff_eq]
            at hde heg ⊢
          refine ⟨⟨hde.1.1, heg.1.2⟩, ?_⟩
          -- two zeros of different sign are equal, and so are numbers with one pattern
          rcases hde.2 with rfl | ⟨ha, hb⟩
          · exact heg.2
          · rcases heg.2 with rfl | ⟨-, hc⟩
            · exact .inr ⟨ha, hb⟩
            · exact .inr ⟨ha, hc⟩
        | _ => simp [same] at heg
      | _ => simp [same] at hde
    | _ => cases e <;> cases g <;> simp_all [same]
  | _ => simp_all [same]

/-- Only a NaN differs from itself. -/
theorem same_self_iff {s : Scalar} {d : Datum} : s.same d d = true ↔ s.isNaN d = false := by
  cases s <;> cases d <;> simp [same, isNaN, FloatType.same]

end Scalar

/-- The equality of a converted type is a partial equivalence. -/
structure Conversion.Lawful (c : Conversion) : Prop where
  symm : ∀ d e, c.same d e = c.same e d
  trans : ∀ d e g, c.same d e = true → c.same e g = true → c.same d g = true

/-- The equality of a converted value is a partial equivalence. -/
def Shape.lawful : Shape → Prop
  | converted c _ => c.Lawful
  | _ => True

/-! ### Values as far as they are compared -/

namespace Schema

/-- The value `v` has shape `s` as far as it is compared. -/
inductive Comparable (Γ : Schema) : Shape → Value → Prop where
  | scalar {s cast d} (h : s.Has d) : Comparable Γ (.scalar s cast) (.datum d)
  | converted {c w d} (h : c.carrier.Has d) : Comparable Γ (.converted c w) (.datum d)
  | delegate {s v} (h : Comparable Γ s v) : Comparable Γ (.delegate s) v
  | staged {s v} (h : Comparable Γ s v) : Comparable Γ (.staged s) v
  | absent {s} : Comparable Γ (.option s) .absent
  | present {s v} (h : Comparable Γ s v) : Comparable Γ (.option s) (.present v)
  | array {size s vs} (hl : vs.length = size) (h : ∀ v ∈ vs, Comparable Γ s v) :
      Comparable Γ (.array size s) (.items vs)
  | seq {s vs} (h : ∀ v ∈ vs, Comparable Γ s v) : Comparable Γ (.seq s) (.items vs)
  /-- Keys are told apart by their order alone. -/
  | map {keys key value es} (hd : es.Pairwise (Entries.Apart keys.compare))
      (h : ∀ e ∈ es, Comparable Γ value e.2) : Comparable Γ (.map keys key value) (.entries es)
  | record {name slots vs} (hf : Γ.find? name = some (.record slots))
      (hl : slots.length = vs.length)
      (h : ∀ p ∈ slots.zip vs, p.1.uncompared = false → Comparable Γ p.1.shape p.2) :
      Comparable Γ (.ref name) (.record vs)
  | empty {name u} (hf : Γ.find? name = some (.holder u)) : Comparable Γ (.ref name) .absent
  | held {name u tag m v} (hf : Γ.find? name = some (.holder u)) (hm : u.member? tag = some m)
      (h : Comparable Γ m.shape v) : Comparable Γ (.ref name) (.present (.member tag v))

/-- The value is a member of the union as far as it is compared. -/
inductive ComparableMember (Γ : Schema) (u : Members) : Value → Prop where
  | intro {tag m v} (hm : u.member? tag = some m) (h : Γ.Comparable m.shape v) :
      ComparableMember Γ u (.member tag v)

/-- The second pair is a part of the first one that is compared. -/
inductive ComparedPart (Γ : Schema) : Shape × Value → Shape × Value → Prop where
  | delegate {s v} : ComparedPart Γ (.delegate s, v) (s, v)
  | staged {s v} : ComparedPart Γ (.staged s, v) (s, v)
  | present {s v} : ComparedPart Γ (.option s, .present v) (s, v)
  | array {size s vs v} (h : v ∈ vs) : ComparedPart Γ (.array size s, .items vs) (s, v)
  | seq {s vs v} (h : v ∈ vs) : ComparedPart Γ (.seq s, .items vs) (s, v)
  | value {keys key value es e} (h : e ∈ es) :
      ComparedPart Γ (.map keys key value, .entries es) (value, e.2)
  | slot {name slots vs slot v} (hf : Γ.find? name = some (.record slots))
      (h : (slot, v) ∈ slots.zip vs) (hc : slot.uncompared = false) :
      ComparedPart Γ (.ref name, .record vs) (slot.shape, v)
  | held {name u tag m v} (hf : Γ.find? name = some (.holder u)) (hm : u.member? tag = some m) :
      ComparedPart Γ (.ref name, .present (.member tag v)) (m.shape, v)

/-- The second pair is inside the first one, or is that pair, and no slot on the way to it is left
out of the comparison. -/
abbrev Compared (Γ : Schema) : Shape × Value → Shape × Value → Prop :=
  Relation.ReflTransGen Γ.ComparedPart

/-- No leaf that is compared differs from itself: no number is a NaN, and each converted value is
equal to itself in its own type. -/
structure SelfEqual (Γ : Schema) (s : Shape) (v : Value) : Prop where
  scalar : ∀ ⦃t cast d⦄, Γ.Compared (s, v) (.scalar t cast, .datum d) → t.isNaN d = false
  converted : ∀ ⦃c w d⦄, Γ.Compared (s, v) (.converted c w, .datum d) → c.same d d = true

variable {Γ : Schema} {s s' : Shape} {a b c v v' : Value}

/-- A part that is compared has a component of the shape. -/
theorem ComparedPart.child (h : Γ.ComparedPart (s, v) (s', v')) : Γ.Child s s' := by
  cases h with
  | delegate => exact .delegate
  | staged => exact .staged
  | present => exact .option
  | array _ => exact .array
  | seq _ => exact .seq
  | value _ => exact .value
  | slot hf hm _ => exact .slot hf (List.of_mem_zip hm).1
  | held hf hm => exact .member hf (Members.mem_of_member? hm)

theorem Compared.occurs {x y : Shape × Value} (h : Γ.Compared x y) : Γ.Occurs x.1 y.1 := by
  induction h with
  | refl => exact .refl
  | tail _ hp ih => exact ih.tail hp.child

theorem SelfEqual.part (h : Γ.SelfEqual s v) (hp : Γ.ComparedPart (s, v) (s', v')) :
    Γ.SelfEqual s' v' where
  scalar _ _ _ hw := h.scalar (hw.head hp)
  converted _ _ _ hw := h.converted (hw.head hp)

theorem Comparable.part (h : Γ.Comparable s v) (hp : Γ.ComparedPart (s, v) (s', v')) :
    Γ.Comparable s' v' := by
  cases hp with
  | delegate => cases h with | delegate h => exact h
  | staged => cases h with | staged h => exact h
  | present => cases h with | present h => exact h
  | array hv => cases h with | array _ h => exact h _ hv
  | seq hv => cases h with | seq h => exact h _ hv
  | value he => cases h with | map _ h => exact h _ he
  | slot hf hv hc =>
    cases h with
    | record hf' _ h =>
      cases hf.symm.trans hf'
      exact h _ hv hc
  | held hf hm =>
    cases h with
    | held hf' hm' h =>
      cases hf.symm.trans hf'
      cases hm.symm.trans hm'
      exact h

/-! ### A value and itself -/

/-- The compared parts of a value that is equal to itself are so too. -/
theorem Same.part (h : Γ.Same s v v) (hv : Γ.Comparable s v)
    (hp : Γ.ComparedPart (s, v) (s', v')) : Γ.Same s' v' v' := by
  cases hp with
  | delegate => cases h with | delegate h => exact h
  | staged => cases h with | staged h => exact h
  | present => cases h with | present h => exact h
  | array hm => cases h with | array _ h => exact h _ _ (mem_zip_self.2 ⟨rfl, hm⟩)
  | seq hm => cases h with | seq _ h => exact h _ _ (mem_zip_self.2 ⟨rfl, hm⟩)
  | value he =>
    cases h with
    | map _ _ h =>
      cases hv with
      | map hd _ => exact h _ he _ (Entries.find?_of_mem hd he)
  | slot hf hm hc =>
    cases h with
    | record hf' _ _ h =>
      cases hf.symm.trans hf'
      exact h _ _ _ (mem_zip_zip_self.2 ⟨rfl, hm⟩) hc
  | held hf hm =>
    cases h with
    | held hf' hm' h =>
      cases hf.symm.trans hf'
      cases hm.symm.trans hm'
      exact h

theorem Same.selfEqual (h : Γ.Same s v v) (hv : Γ.Comparable s v) : Γ.SelfEqual s v := by
  -- what holds of the value is carried along the way to a leaf
  have hway {y : Shape × Value} (hy : Γ.Compared (s, v) y) :
      Γ.Comparable y.1 y.2 ∧ Γ.Same y.1 y.2 y.2 := by
    induction hy with
    | refl => exact ⟨hv, h⟩
    | tail _ hp ih => exact ⟨ih.1.part hp, ih.2.part ih.1 hp⟩
  constructor
  · intro t cast d hleaf
    cases (hway hleaf).2 with
    | scalar hd => exact Scalar.same_self_iff.1 hd
  · intro c w d hleaf
    cases (hway hleaf).2 with
    | converted hd => exact hd

theorem SelfEqual.same (h : Γ.SelfEqual s v) (hv : Γ.Comparable s v) : Γ.Same s v v := by
  induction hv with
  | scalar _ => exact .scalar (Scalar.same_self_iff.2 (h.scalar .refl))
  | converted _ => exact .converted (h.converted .refl)
  | delegate _ ih => exact .delegate (ih (h.part .delegate))
  | staged _ ih => exact .staged (ih (h.part .staged))
  | absent => exact .absent
  | present _ ih => exact .present (ih (h.part .present))
  | array _ _ ih =>
    refine .array rfl fun x y hxy => ?_
    obtain ⟨rfl, hx⟩ := mem_zip_self.1 hxy
    exact ih x hx (h.part (.array hx))
  | seq _ ih =>
    refine .seq rfl fun x y hxy => ?_
    obtain ⟨rfl, hx⟩ := mem_zip_self.1 hxy
    exact ih x hx (h.part (.seq hx))
  | map hd _ ih =>
    refine .map rfl (fun e he => ?_) fun e he b hb => ?_
    · rw [Entries.find?_of_mem hd he]
      rfl
    · rw [Entries.find?_of_mem hd he] at hb
      cases hb
      exact ih e he (h.part (.value he))
  | record hf hl _ ih =>
    refine .record hf hl.le hl.le fun slot x y hxy hc => ?_
    obtain ⟨rfl, hx⟩ := mem_zip_zip_self.1 hxy
    exact ih (slot, x) hx hc (h.part (.slot hf hx hc))
  | empty hf => exact .empty hf
  | held hf hm _ ih => exact .held hf hm (ih (h.part (.held hf hm)))

/-- A value is equal to itself if and only if each compared leaf in it is. -/
theorem Comparable.same_self_iff (hv : Γ.Comparable s v) : Γ.Same s v v ↔ Γ.SelfEqual s v :=
  ⟨fun h => h.selfEqual hv, fun h => h.same hv⟩

/-! ### Symmetry and transitivity -/

theorem Same.symm (h : Γ.Same s a b) (hs : Γ.Throughout Shape.lawful s) (ha : Γ.Comparable s a)
    (hb : Γ.Comparable s b) : Γ.Same s b a := by
  induction h with
  | scalar h => exact .scalar (Scalar.same_comm .. ▸ h)
  | converted h =>
    have hlaw : Conversion.Lawful _ := hs.self
    exact .converted (hlaw.symm .. ▸ h)
  | delegate _ ih =>
    exact .delegate (ih (hs.child .delegate) (ha.part .delegate) (hb.part .delegate))
  | staged _ ih => exact .staged (ih (hs.child .staged) (ha.part .staged) (hb.part .staged))
  | absent => exact .absent
  | present _ ih => exact .present (ih (hs.child .option) (ha.part .present) (hb.part .present))
  | array hl _ ih =>
    refine .array hl.symm fun x y hxy => ?_
    have hyx := mem_zip_comm.1 hxy
    exact ih y x hyx (hs.child .array) (ha.part (.array (List.of_mem_zip hyx).1))
      (hb.part (.array (List.of_mem_zip hyx).2))
  | seq hl _ ih =>
    refine .seq hl.symm fun x y hxy => ?_
    have hyx := mem_zip_comm.1 hxy
    exact ih y x hyx (hs.child .seq) (ha.part (.seq (List.of_mem_zip hyx).1))
      (hb.part (.seq (List.of_mem_zip hyx).2))
  | @map keys key value es fs hl hk _ ih =>
    cases ha with
    | map hd hes =>
      cases hb with
      | map hd' hfs =>
        -- the second map has no key that the first one lacks, as it has no more keys
        have hkeys := Entries.places_perm hd hl hk
        refine .map hl.symm (fun f hf => ?_) fun f hf x hx => ?_
        · exact Entries.find?_isSome_iff.2 (hkeys.mem_iff.2 (Entries.mem_places hf))
        · -- the key of the first map counts as the one that is looked up
          obtain ⟨k, hc, hmem⟩ := Entries.exists_mem_of_find? hx
          have hfound : Entries.find? keys.compare k fs = some f.2 :=
            (Entries.find?_congr hc).symm.trans (Entries.find?_of_mem hd' hf)
          exact ih (k, x) hmem f.2 hfound (hs.child .value) (hes _ hmem) (hfs f hf)
  | @record name slots as bs hf hla hlb _ ih =>
    refine .record hf hlb hla fun slot x y hxy hc => ?_
    have hyx := mem_zip_zip_comm.1 hxy
    have hslot := (List.of_mem_zip (List.of_mem_zip hyx).1).1
    refine ih slot y x hyx hc (hs.slot hf hslot) (ha.part (.slot hf (List.of_mem_zip hyx).1 hc))
      (hb.part (.slot hf (List.of_mem_zip hxy).1 hc))
  | empty hf => exact .empty hf
  | held hf hm _ ih =>
    exact .held hf hm (ih (hs.member hf hm) (ha.part (.held hf hm)) (hb.part (.held hf hm)))

theorem Same.trans (h : Γ.Same s a b) (h' : Γ.Same s b c) (hs : Γ.Throughout Shape.lawful s) :
    Γ.Same s a c := by
  induction h generalizing c with
  | scalar h => cases h' with | scalar h' => exact .scalar (Scalar.same_trans h h')
  | converted h =>
    have hlaw : Conversion.Lawful _ := hs.self
    cases h' with
    | converted h' => exact .converted (hlaw.trans _ _ _ h h')
  | delegate _ ih => cases h' with | delegate h' => exact .delegate (ih h' (hs.child .delegate))
  | staged _ ih => cases h' with | staged h' => exact .staged (ih h' (hs.child .staged))
  | absent => exact h'
  | present _ ih => cases h' with | present h' => exact .present (ih h' (hs.child .option))
  | array hl _ ih =>
    cases h' with
    | array hl' h' =>
      refine .array (hl.trans hl') fun x z hxz => ?_
      obtain ⟨y, hxy, hyz⟩ := exists_mem_zip_between hl.le hxz
      exact ih x y hxy (h' y z hyz) (hs.child .array)
  | seq hl _ ih =>
    cases h' with
    | seq hl' h' =>
      refine .seq (hl.trans hl') fun x z hxz => ?_
      obtain ⟨y, hxy, hyz⟩ := exists_mem_zip_between hl.le hxz
      exact ih x y hxy (h' y z hyz) (hs.child .seq)
  | map hl hk _ ih =>
    cases h' with
    | map hl' hk' h' =>
      refine .map (hl.trans hl') (fun e he => ?_) fun e he x hx => ?_
      · obtain ⟨y, hy⟩ := Option.isSome_iff_exists.1 (hk e he)
        obtain ⟨k, hc, hmem⟩ := Entries.exists_mem_of_find? hy
        rw [Entries.find?_congr hc]
        exact hk' (k, y) hmem
      · obtain ⟨y, hy⟩ := Option.isSome_iff_exists.1 (hk e he)
        obtain ⟨k, hc, hmem⟩ := Entries.exists_mem_of_find? hy
        rw [Entries.find?_congr hc] at hx
        exact ih e he y hy (h' (k, y) hmem x hx) (hs.child .value)
  | record hf hla hlb _ ih =>
    cases h' with
    | record hf' hla' hlb' h' =>
      cases hf.symm.trans hf'
      refine .record hf hla hlb' fun slot x z hxz hc => ?_
      obtain ⟨y, hxy, hyz⟩ := exists_mem_zip_zip_between hlb hxz
      exact ih slot x y hxy hc (h' slot y z hyz hc)
        (hs.slot hf (List.of_mem_zip (List.of_mem_zip hxy).1).1)
  | empty hf => exact h'
  | held hf hm _ ih =>
    cases h' with
    | held hf' hm' h' =>
      cases hf.symm.trans hf'
      cases hm.symm.trans hm'
      exact .held hf hm (ih h' (hs.member hf hm))

/-! ### Partial equivalence -/

/-- The equality is a partial equivalence among the values of a type, and these are equal to
themselves as said. -/
structure PartialEquality (equal : Value → Value → Bool) (typed selfEqual : Value → Prop) :
    Prop where
  symm : ∀ a b, typed a → typed b → equal a b = equal b a
  trans : ∀ a b c, equal a b = true → equal b c = true → equal a c = true
  self_iff : ∀ a, typed a → (equal a a = true ↔ selfEqual a)

/-- No leaf of the member that is compared differs from itself. -/
inductive SelfEqualMember (Γ : Schema) (u : Members) : Value → Prop where
  | intro {tag m v} (hm : u.member? tag = some m) (h : Γ.SelfEqual m.shape v) :
      SelfEqualMember Γ u (.member tag v)

theorem partialEquality_equals (style : Style) (hs : Γ.Throughout Shape.lawful s) :
    PartialEquality (Γ.equals style s) (Γ.Comparable s) (Γ.SelfEqual s) where
  symm a b ha hb := by
    rw [Bool.eq_iff_iff, equals_iff, equals_iff]
    exact ⟨fun h => h.symm hs ha hb, fun h => h.symm hs hb ha⟩
  trans a b c hab hbc := equals_iff.2 ((equals_iff.1 hab).trans (equals_iff.1 hbc) hs)
  self_iff a ha := equals_iff.trans ha.same_self_iff

theorem SameMember.symm {u : Members} (h : Γ.SameMember u a b)
    (hu : ∀ m ∈ u, Γ.Throughout Shape.lawful m.shape) (ha : Γ.ComparableMember u a)
    (hb : Γ.ComparableMember u b) : Γ.SameMember u b a := by
  cases h with
  | intro hm h =>
    cases ha with
    | intro hma ha =>
      cases hb with
      | intro hmb hb =>
        cases hm.symm.trans hma
        cases hm.symm.trans hmb
        exact .intro hm (h.symm (hu _ (Members.mem_of_member? hm)) ha hb)

theorem SameMember.trans {u : Members} (h : Γ.SameMember u a b) (h' : Γ.SameMember u b c)
    (hu : ∀ m ∈ u, Γ.Throughout Shape.lawful m.shape) : Γ.SameMember u a c := by
  cases h with
  | intro hm h =>
    cases h' with
    | intro hm' h' =>
      cases hm.symm.trans hm'
      exact .intro hm (h.trans h' (hu _ (Members.mem_of_member? hm)))

theorem ComparableMember.same_self_iff {u : Members} (ha : Γ.ComparableMember u a) :
    Γ.SameMember u a a ↔ Γ.SelfEqualMember u a := by
  cases ha with
  | intro hm ha =>
    constructor
    · intro h
      cases h with
      | intro hm' h =>
        cases hm.symm.trans hm'
        exact .intro hm (ha.same_self_iff.1 h)
    · intro h
      cases h with
      | intro hm' h =>
        cases hm.symm.trans hm'
        exact .intro hm (ha.same_self_iff.2 h)

theorem partialEquality_equalMembers {u : Members}
    (hu : ∀ m ∈ u, Γ.Throughout Shape.lawful m.shape) :
    PartialEquality (Γ.equalMembers u) (Γ.ComparableMember u) (Γ.SelfEqualMember u) where
  symm a b ha hb := by
    rw [Bool.eq_iff_iff, equalMembers_iff, equalMembers_iff]
    exact ⟨fun h => h.symm hu ha hb, fun h => h.symm hu hb ha⟩
  trans a b c hab hbc :=
    equalMembers_iff.2 ((equalMembers_iff.1 hab).trans (equalMembers_iff.1 hbc) hu)
  self_iff a ha := equalMembers_iff.trans ha.same_self_iff

/-- **Equality is a partial equivalence**, if that of the converted types is, whatever the orders of
map keys are: for the values of a shape and for the members of a union.  Only what is compared can
make a value differ from itself. -/
theorem equals_partialEquality {u : Members} (style : Style) (hs : Γ.Throughout Shape.lawful s)
    (hu : ∀ m ∈ u, Γ.Throughout Shape.lawful m.shape) :
    PartialEquality (Γ.equals style s) (Γ.Comparable s) (Γ.SelfEqual s) ∧
      PartialEquality (Γ.equalMembers u) (Γ.ComparableMember u) (Γ.SelfEqualMember u) :=
  ⟨partialEquality_equals style hs, partialEquality_equalMembers hu⟩

/-- The last digit of a key. -/
def keyDigit : Value → Int
  | .datum d => Catalogue.lastDigit d
  | _ => 0

/-- Keys of which the last digit counts. -/
def byLastDigit : KeyOrder := ⟨compareOn keyDigit, inferInstance⟩

/-- Readings with levels by number and a phase, of which the last digits count, and a total that is
not compared. -/
def readings : Schema :=
  { decls := [("Reading", .record
      [{ label := .name "levels",
         shape := .map ⟨byLastDigit, .hashed⟩ (.converted Catalogue.modded (.var ⟨false, .w32⟩))
          (.scalar (.float .double) none) },
       { label := .name "phase", shape := .converted Catalogue.modded (.var ⟨false, .w32⟩) },
       { label := .name "total", shape := .scalar (.float .double) none, uncompared := true }])] }

/-- A reading of two levels in the order of their visit, which are given as bit patterns. -/
def reading (first second : Int × Nat) (phase : Int) (total : Nat) : Value :=
  .record
    [.entries [(.datum (.int first.1), .datum (.float first.2)),
       (.datum (.int second.1), .datum (.float second.2))],
     .datum (.int phase), .datum (.float total)]

theorem comparable_reading {first second : Int × Nat} {phase : Int} {total : Nat}
    (hne : first.1 % 10 ≠ second.1 % 10) (hfirst : first.2 < 2 * FloatType.double.signPlace)
    (hsecond : second.2 < 2 * FloatType.double.signPlace)
    (hphase : IntType.InRange ⟨false, .w32⟩ phase) :
    readings.Comparable (.ref "Reading") (reading first second phase total) := by
  refine .record rfl rfl ?_
  simp only [List.zip_cons_cons, List.zip_nil_right, List.forall_mem_cons]
  have hapart : compare (first.1 % 10) (second.1 % 10) ≠ .eq := by simpa using hne
  refine ⟨fun _ => .map (List.pairwise_pair.2 hapart) ?_, fun _ => .converted hphase,
    fun hc => Bool.noConfusion hc, List.forall_mem_nil _⟩
  simp only [List.forall_mem_cons]
  exact ⟨.scalar hfirst, .scalar hsecond, List.forall_mem_nil _⟩

theorem lawful_modded : Catalogue.modded.Lawful where
  symm _ _ := BEq.comm
  trans d e g hde heg := by
    simp only [Catalogue.modded, beq_iff_eq] at hde heg ⊢
    exact hde.trans heg

theorem lawful_readings : readings.Throughout Shape.lawful (.ref "Reading") := by
  refine throughout_of_every ?_ trivial
  simp only [Every, readings, List.forall_mem_cons, Decl.Every]
  exact ⟨⟨⟨trivial, lawful_modded, trivial⟩, lawful_modded, trivial, List.forall_mem_nil _⟩,
    List.forall_mem_nil _⟩

/-- Two readings are equal, both ways, although their levels are visited in another order, their
zeros have another sign, the numbers of their levels and their phases differ by ten, and only the
second total is a number.  A NaN among the levels makes a reading differ from itself. -/
theorem equals_partialEquality_readings :
    let a := reading (3, 4607182418800017408) (8, 0) 3 9221120237041090560
    let b := reading (18, 9223372036854775808) (13, 4607182418800017408) 13 0
    let c := reading (3, 9221120237041090560) (8, 0) 3 0
    readings.Throughout Shape.lawful (.ref "Reading") ∧
    readings.equals .expanded (.ref "Reading") b a = true ∧
    readings.SelfEqual (.ref "Reading") a ∧ ¬ readings.SelfEqual (.ref "Reading") c ∧
    readings.SelfEqualMember [⟨"Reading", .ref "Reading"⟩] (.member 1 a) := by
  intro a b c
  have ha : readings.Comparable (.ref "Reading") a :=
    comparable_reading (by decide) (by decide) (by decide) (by decide)
  have hb : readings.Comparable (.ref "Reading") b :=
    comparable_reading (by decide) (by decide) (by decide) (by decide)
  have hc : readings.Comparable (.ref "Reading") c :=
    comparable_reading (by decide) (by decide) (by decide) (by decide)
  have hu : ∀ m ∈ [Member.mk "Reading" (.ref "Reading")],
      readings.Throughout Shape.lawful m.shape := by
    simp only [List.forall_mem_cons]
    exact ⟨lawful_readings, List.forall_mem_nil _⟩
  have hab : readings.equals .expanded (.ref "Reading") a b = true := by decide +kernel
  obtain ⟨hs, hm⟩ := equals_partialEquality .expanded lawful_readings hu
  refine ⟨lawful_readings, ?_, (hs.self_iff a ha).1 ?_, fun hself => ?_,
    (hm.self_iff _ (.intro rfl ha)).1 ?_⟩
  · rw [← hs.symm a b ha hb]
    exact hab
  · decide +kernel
  · have hcc := (hs.self_iff c hc).2 hself
    revert hcc
    decide +kernel
  · decide +kernel

end Schema

end Marshal
