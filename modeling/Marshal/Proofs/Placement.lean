import Marshal.Code.Reading
import Marshal.Proofs.Execution
import Marshal.Proofs.Typing

/-!
# Places of fields

Emitted code finds the types of what it works on in the places that it is given.  `Placed` says what
a field tree and its shape have to do with the type of a place: at a leaf the type is that of the
scalar, or of what has its own code, or of what is converted, and at a container the types of its
parts are those that the trees below stand for.

The tree that is built for a type fits a place of that type (`LaidOut.placed`), if a type with a
conversion that is not cast is stored as the scalar that the conversion starts from
(`Field.StoresCarriers`).
-/

namespace Marshal

variable {vocabulary : Vocabulary} {Γ : Schema}

/-! ### Shapes of types -/

namespace TypeExpr

theorem shape?_bare (vocabulary : Vocabulary) (t : TypeExpr) :
    t.bare.shape? vocabulary = t.shape? vocabulary := by
  cases t with
  | paren t | hidden t =>
    rw [bare, shape?]
    exact shape?_bare vocabulary t
  | _ => rfl

end TypeExpr

theorem argumentShapes_eq (vocabulary : Vocabulary) (as : List Argument) :
    argumentShapes vocabulary as =
      (as.filterMap Argument.type?).map fun t => (t, t.shape? vocabulary) := by
  induction as with
  | nil => simp [argumentShapes]
  | cons a as ih => cases a <;> simp [argumentShapes, List.filterMap_cons, Argument.type?, ih]

theorem segmentShapes_eq (vocabulary : Vocabulary) (s : Segment) :
    segmentShapes vocabulary s = s.types.map fun t => (t, t.shape? vocabulary) := by
  cases s with
  | plain | parenthesised => simp [segmentShapes, Segment.types]
  | applied ident separate arguments => rw [segmentShapes, argumentShapes_eq, Segment.types]

namespace TypeExpr

variable {leading : Bool} {ss : List Segment} {s : Segment} {t tk tv : TypeExpr}
  {ts : List TypeExpr} {inner key value : Shape}

/-- The last segment of a path decides its shape, if it has no arguments in parentheses. -/
theorem shape?_path (hs : ss.getLast? = some s) (hp : ∀ i ts t, s ≠ .parenthesised i ts t) :
    (path leading ss).shape? vocabulary =
      vocabulary.shapeOf s (s.types.map fun t => (t, t.shape? vocabulary)) := by
  rw [shape?]
  induction ss with
  | nil => cases hs
  | cons s' ss ih =>
    cases ss with
    | nil =>
      obtain rfl : s' = s := Option.some.inj hs
      cases s' with
      | plain | applied => rw [segmentsShape?, segmentShapes_eq]; simp
      | parenthesised i ts t => exact absurd rfl (hp i ts t)
    | cons s'' ss =>
      rw [segmentsShape?]
      exact ih (by simpa using hs)

theorem ne_parenthesised (ht : s.types = t :: ts) (i : String) (us : List TypeExpr)
    (u : Option TypeExpr) : s ≠ .parenthesised i us u := by
  rintro rfl
  cases ht

theorem shape?_sequence (hs : ss.getLast? = some s) (hi : s.ident = "Vec") (ht : s.types = [t])
    (h : t.shape? vocabulary = some inner) :
    (path leading ss).shape? vocabulary = some (.seq inner) := by
  rw [shape?_path hs (ne_parenthesised ht), ht, List.map_singleton, h]
  unfold Vocabulary.shapeOf
  rw [hi]
  rfl

theorem shape?_optional (hs : ss.getLast? = some s) (hi : s.ident = "Option")
    (ht : s.types = [t]) (h : t.shape? vocabulary = some inner) :
    (path leading ss).shape? vocabulary = some (.option inner) := by
  rw [shape?_path hs (ne_parenthesised ht), ht, List.map_singleton, h]
  unfold Vocabulary.shapeOf
  rw [hi]
  rfl

theorem shape?_map (hs : ss.getLast? = some s) (hform : s.form ∈ Segment.mapForms)
    (ht : s.types = tk :: tv :: ts) (hk : tk.shape? vocabulary = some key)
    (hv : tv.shape? vocabulary = some value) :
    ∃ keys, (path leading ss).shape? vocabulary = some (.map keys key value) := by
  rw [shape?_path hs (ne_parenthesised ht), ht, List.map_cons, List.map_cons, hk, hv]
  unfold Vocabulary.shapeOf
  simp only [Segment.form, ht, Segment.mapForms, List.mem_cons, List.not_mem_nil, or_false,
    Prod.mk.injEq, List.length_cons] at hform
  rcases hform with ⟨hi, hlen⟩ | ⟨hi, hlen⟩ | ⟨hi, hlen⟩
  · obtain rfl : ts = [] := List.length_eq_zero_iff.1 (by omega)
    exact ⟨_, by rw [hi]; rfl⟩
  · obtain ⟨t, rfl⟩ : ∃ t, ts = [t] := List.length_eq_one_iff.1 (by omega)
    exact ⟨_, by rw [hi]; rfl⟩
  · obtain rfl : ts = [] := List.length_eq_zero_iff.1 (by omega)
    exact ⟨_, by rw [hi]; rfl⟩

theorem shape?_scalar {ident : String} {w : Wire} (hs : ss.getLast? = some (.plain ident))
    (hw : (ident, w) ∈ Wire.ownKinds) :
    (path leading ss).shape? vocabulary = some (.scalar w.scalar none) := by
  have hall : ∀ x ∈ Wire.ownKinds,
      vocabulary.shapeOf (.plain x.1) [] = some (.scalar x.2.scalar none) := by
    simp only [Wire.ownKinds, List.forall_mem_cons]
    exact ⟨rfl, rfl, rfl, rfl, rfl, rfl, rfl, rfl, rfl, rfl, rfl, rfl, rfl, rfl, by simp⟩
  rw [shape?_path hs (by simp)]
  exact hall _ hw

end TypeExpr

/-! ### Fields and the types of their places -/

/-- The field tree stands for what is at a place of the type, which is laid out as the shape
says. -/
inductive Placed (vocabulary : Vocabulary) : TypeExpr → Field → Shape → Prop where
  | scalar {t info type w} (htype : type.bare = t.bare) (ht : t.scalar? = some w.scalar)
      (hw : w.scalar.wire = w) (hs : t.shape? vocabulary = some (.scalar w.scalar none)) :
      Placed vocabulary t (.leaf info type (some w)) (.scalar w.scalar info.modifiers.cast)
  | nested {t info type s} (htype : type.bare = t.bare) (hc : info.modifiers.cast = none)
      (hs : t.shape? vocabulary = some s)
      (hconv : ∀ c, vocabulary.conversion? t = some c → s = .scalar c.carrier none) :
      Placed vocabulary t (.leaf info type none) (.delegate s)
  | converted {t info type c w} (htype : type.bare = t.bare) (hc : info.modifiers.cast = some w)
      (ht : t.scalar? = none) (hconv : vocabulary.conversion? t = some c) :
      Placed vocabulary t (.leaf info type none) (.converted c w)
  | array {t u info type n f size s} (htype : type.bare = t.bare)
      (hsize : t.bare.arraySize? = some size) (hu : t.part? 0 = some u)
      (h : Placed vocabulary u f s) :
      Placed vocabulary t (.array info type n f) (.array size s)
  | sequence {t u info type n f s s'} (htype : type.bare = t.bare)
      (hs : t.shape? vocabulary = some (.seq s')) (hu : t.part? 0 = some u)
      (h : Placed vocabulary u f s) :
      Placed vocabulary t (.sequence info type n f) (.seq s)
  | map {t tk tv info type n fk fv keys keys' key key' value value'} (htype : type.bare = t.bare)
      (hs : t.shape? vocabulary = some (.map keys' key' value')) (htk : t.part? 0 = some tk)
      (htv : t.part? 1 = some tv) (hkeys : keys.compare = vocabulary.compareKeys tk)
      (hk : Placed vocabulary tk fk key) (hv : Placed vocabulary tv fv value) :
      Placed vocabulary t (.map info type n fk fv) (.map keys key value)
  | optional {t u info type n f s s'} (htype : type.bare = t.bare)
      (hs : t.shape? vocabulary = some (.option s')) (hu : t.part? 0 = some u)
      (h : Placed vocabulary u f s) :
      Placed vocabulary t (.optional info type n f) (.option s)

theorem Schema.Fits.exists_datum {a : Scalar} {cast : Option Wire} {v : Value}
    (h : Γ.Fits (.scalar a cast) v) : ∃ d, v = .datum d := by
  cases cast with
  | none =>
    cases h
    exact ⟨_, rfl⟩
  | some w =>
    cases h
    exact ⟨_, rfl⟩

namespace Vocabulary

variable {t u : TypeExpr} {s : Scalar}

theorem conversion?_of_scalar (h : t.scalar? = some s) : vocabulary.conversion? t = none := by
  simp [conversion?, h]

theorem conversion?_of_part (h : t.part? 0 = some u) : vocabulary.conversion? t = none := by
  have hne : t.bare.contents ≠ [] := by
    intro he
    rw [TypeExpr.part?, he] at h
    cases h
  simp [conversion?, hne]

end Vocabulary

namespace Placed

variable {t u : TypeExpr} {f : Field} {s : Shape}

/-- What is around a type does not matter. -/
theorem congr (h : Placed vocabulary t f s) (hu : u.bare = t.bare) : Placed vocabulary u f s := by
  have hshape : u.shape? vocabulary = t.shape? vocabulary := by
    rw [← u.shape?_bare, hu, t.shape?_bare]
  have hpart i : u.part? i = t.part? i := by rw [TypeExpr.part?, hu, TypeExpr.part?]
  have hscalar : u.scalar? = t.scalar? := by rw [TypeExpr.scalar?, hu, TypeExpr.scalar?]
  have hconversion : vocabulary.conversion? u = vocabulary.conversion? t := by
    rw [Vocabulary.conversion?, hu, hscalar, Vocabulary.conversion?]
  cases h with
  | scalar htype ht hw hs =>
    exact .scalar (htype.trans hu.symm) (hscalar.trans ht) hw (hshape.trans hs)
  | nested htype hc hs hconv =>
    exact .nested (htype.trans hu.symm) hc (hshape.trans hs) (hconversion ▸ hconv)
  | converted htype hc ht hconv =>
    exact .converted (htype.trans hu.symm) hc (hscalar.trans ht) (hconversion.trans hconv)
  | array htype hsize hu' h =>
    exact .array (htype.trans hu.symm) (by rw [hu, hsize]) ((hpart 0).trans hu') h
  | sequence htype hs hu' h =>
    exact .sequence (htype.trans hu.symm) (hshape.trans hs) ((hpart 0).trans hu') h
  | map htype hs htk htv hkeys hk hv =>
    exact .map (htype.trans hu.symm) (hshape.trans hs) ((hpart 0).trans htk)
      ((hpart 1).trans htv) hkeys hk hv
  | optional htype hs hu' h =>
    exact .optional (htype.trans hu.symm) (hshape.trans hs) ((hpart 0).trans hu') h

theorem bare_type (h : Placed vocabulary t f s) : f.type.bare = t.bare := by
  cases h <;> assumption

/-- The field stands for what is in a variable of its type. -/
theorem at_type (h : Placed vocabulary t f s) : Placed vocabulary f.type f s := h.congr h.bare_type

theorem takesBytes (h : Placed vocabulary t f s) : s.takesBytes = f.takesBytes := by
  cases h with
  | nested _ hc _ _ | converted _ hc _ _ =>
    simp [Shape.takesBytes, Field.takesBytes, Field.encodedWire, hc]
  | scalar => simp [Shape.takesBytes, Field.takesBytes, Field.encodedWire]
  | array | sequence | map | optional => rfl

theorem isRawByte (h : Placed vocabulary t f s) : s.isRawByte = f.isRawByte := by
  cases h with
  | @scalar _ info _ w _ _ hw _ =>
    have hiff : w.scalar = .byte ↔ w = .fixed .byte := by
      constructor
      · intro hb
        rw [← hw, hb]
        rfl
      · rintro rfl
        rfl
    rw [Bool.eq_iff_iff]
    simp [Shape.isRawByte, Field.isRawByte, hiff]
  | nested | converted | array | sequence | map | optional => rfl

/-- The blank value of the field is that of its shape. -/
theorem fresh_value (Γ : Schema) (h : Placed vocabulary t f s) :
    f.fresh.value? vocabulary Γ t = some (Γ.blank s) := by
  induction h with
  | scalar _ ht _ hs =>
    rw [Field.fresh, Fresh.value?, Vocabulary.blank?, Vocabulary.conversion?_of_scalar ht, hs]
    rfl
  | nested _ _ hs hconv =>
    rw [Field.fresh, Fresh.value?, Vocabulary.blank?, hs]
    split
    · rename_i c hc
      rw [hconv c hc]
      rfl
    · rfl
  | converted _ _ _ hconv =>
    rw [Field.fresh, Fresh.value?, Vocabulary.blank?, hconv]
    rfl
  | sequence _ hs hu _ _ | map _ hs hu _ _ _ _ _ _ | optional _ hs hu _ _ =>
    rw [Field.fresh, Fresh.value?, Vocabulary.blank?, Vocabulary.conversion?_of_part hu, hs]
    rfl
  | array _ hsize hu _ ih =>
    rw [Field.fresh, Fresh.value?, hsize, hu]
    simp only [ih]
    rfl

end Placed

/-! ### Trees that are built -/

/-- A type with a conversion has a shape of its own, and where it is not cast this is the scalar
that the conversion starts from. -/
def Field.StoresCarriers (vocabulary : Vocabulary) (cast : Option Wire) (f : Field) : Prop :=
  ∀ t c, (t, none) ∈ f.leaves → vocabulary.conversion? t = some c →
    ∃ s, t.shape? vocabulary = some s ∧ (cast = none → s = .scalar c.carrier none)

theorem Field.StoresCarriers.key {cast : Option Wire} {info : NodeInfo} {t : TypeExpr} {n : Nat}
    {key value : Field} (h : (Field.map info t n key value).StoresCarriers vocabulary cast) :
    key.StoresCarriers vocabulary cast :=
  fun t c ht => h t c (List.mem_append_left _ ht)

theorem Field.StoresCarriers.value {cast : Option Wire} {info : NodeInfo} {t : TypeExpr} {n : Nat}
    {key value : Field} (h : (Field.map info t n key value).StoresCarriers vocabulary cast) :
    value.StoresCarriers vocabulary cast :=
  fun t c ht => h t c (List.mem_append_right _ ht)

theorem Wire.wire_scalar_of_mem {ident : String} {w : Wire} (h : (ident, w) ∈ ownKinds) :
    w.scalar.wire = w := by
  have hall : ∀ x ∈ ownKinds, x.2.scalar.wire = x.2 := by decide
  exact hall _ h

namespace LaidOut

variable {t : TypeExpr} {n : Nat} {g : Field} {m : Modifiers} {s : Shape}

theorem part?_path {leading : Bool} {ss : List Segment} {seg : Segment}
    (hs : ss.getLast? = some seg) (hform : seg.form ∈ Segment.containerForms) (i : Nat) :
    (TypeExpr.path leading ss).part? i = (seg.types.take 2)[i]? := by
  show (TypeExpr.path leading ss).contents[i]? = _
  rw [TypeExpr.contents_of_form hs hform]

theorem scalar?_path_eq_none {leading : Bool} {ss : List Segment} {seg : Segment}
    (hs : ss.getLast? = some seg)
    (hw : ∀ ident w, seg = .plain ident → (ident, w) ∉ Wire.ownKinds) :
    (TypeExpr.path leading ss).scalar? = none := by
  have hnone : seg.wire? = none := by
    cases seg with
    | applied | parenthesised => rfl
    | plain ident =>
      refine Option.eq_none_iff_forall_ne_some.2 fun w h => hw ident w rfl ?_
      exact Wire.ofTypeName?_eq_some_iff.1 h
  simp [TypeExpr.scalar?, TypeExpr.bare, hs, hnone]

/-- The tree that is built for a type fits a place of that type. -/
theorem placed (h : LaidOut t n g) (name : String)
    (hs : ((g.withName name).withModifiers m).shape? vocabulary = some s)
    (hstore : g.StoresCarriers vocabulary m.cast) :
    Placed vocabulary t ((g.withName name).withModifiers m) s ∧
      ∃ s', t.shape? vocabulary = some s' := by
  induction h generalizing name s with
  | @paren t n g h ih | @hidden t n g h ih =>
    obtain ⟨hplaced, hshape⟩ := ih name hs hstore
    exact ⟨hplaced.congr rfl, by rwa [TypeExpr.shape?]⟩
  | @array t length n g h ih =>
    simp only [Field.withName, Field.withModifiers, Field.shape?] at hs ⊢
    split at hs
    · rename_i size inner hsize hinner
      cases hs
      obtain ⟨hplaced, s', hs'⟩ := ih _ hinner hstore
      exact ⟨.array rfl hsize rfl hplaced, .array size s', by
        rw [TypeExpr.arraySize?] at hsize
        rw [TypeExpr.shape?, hs', hsize]⟩
    · cases hs
  | @sequence leading ss seg t n g hlast hi ht h ih =>
    obtain ⟨inner, hinner, rfl⟩ := Option.map_eq_some_iff.1 hs
    obtain ⟨hplaced, s', hs'⟩ := ih _ hinner hstore
    have hform : seg.form ∈ Segment.containerForms := by
      simp [Segment.form, hi, ht, Segment.containerForms]
    have hshape : (TypeExpr.path leading ss).shape? vocabulary = some (.seq s') :=
      TypeExpr.shape?_sequence hlast hi ht hs'
    exact ⟨.sequence rfl hshape (by rw [part?_path hlast hform, ht]; rfl) hplaced, _, hshape⟩
  | @optional leading ss seg t n g hlast hi ht h ih =>
    obtain ⟨inner, hinner, rfl⟩ := Option.map_eq_some_iff.1 hs
    obtain ⟨hplaced, s', hs'⟩ := ih _ hinner hstore
    have hform : seg.form ∈ Segment.containerForms := by
      simp [Segment.form, hi, ht, Segment.containerForms]
    have hshape : (TypeExpr.path leading ss).shape? vocabulary = some (.option s') :=
      TypeExpr.shape?_optional hlast hi ht hs'
    exact ⟨.optional rfl hshape (by rw [part?_path hlast hform, ht]; rfl) hplaced, _, hshape⟩
  | @map leading ss seg tk tv ts n fk fv hlast hform ht hk hv ihk ihv =>
    simp only [Field.withName, Field.withModifiers, Field.shape?] at hs ⊢
    split at hs
    · rename_i key value hkey hvalue
      cases hs
      obtain ⟨hplacedk, key', hkey'⟩ := ihk _ hkey hstore.key
      obtain ⟨hplacedv, value', hvalue'⟩ := ihv _ hvalue hstore.value
      have hform' : seg.form ∈ Segment.containerForms := by simp [Segment.containerForms, hform]
      obtain ⟨keys, hshape⟩ : ∃ keys, (TypeExpr.path leading ss).shape? vocabulary =
          some (.map keys key' value') := TypeExpr.shape?_map hlast hform ht hkey' hvalue'
      refine ⟨.map rfl hshape (by rw [part?_path hlast hform', ht]; rfl)
        (by rw [part?_path hlast hform', ht]; rfl) ?_ hplacedk hplacedv, _, hshape⟩
      -- the keys compare as the type does that the tree of the keys was built from
      rw [Field.type_withModifiers, Field.type_withName, Field.type_ofType tk hk.ofType_eq]
      rfl
    · cases hs
  | @scalar leading ss ident w n hlast hw =>
    cases hs
    have hshape : (TypeExpr.path leading ss).shape? vocabulary = some (.scalar w.scalar none) :=
      TypeExpr.shape?_scalar hlast hw
    refine ⟨.scalar rfl ?_ (Wire.wire_scalar_of_mem hw) hshape, _, hshape⟩
    simp [TypeExpr.scalar?, TypeExpr.bare, hlast, Segment.wire?,
      Wire.ofTypeName?_eq_some_iff.2 hw]
  | @delegate leading ss seg n hlast hform hw =>
    have hscalar : (TypeExpr.path leading ss).scalar? = none := scalar?_path_eq_none hlast hw
    simp only [Field.withName, Field.withModifiers, Field.shape?] at hs ⊢
    split at hs
    · rename_i hc
      obtain ⟨s', hs', rfl⟩ := Option.map_eq_some_iff.1 hs
      refine ⟨.nested rfl hc hs' fun c hconv => ?_, s', hs'⟩
      obtain ⟨s'', hs'', hstored⟩ := hstore _ c List.mem_cons_self hconv
      exact (Option.some.inj (hs'.symm.trans hs'')).trans (hstored hc)
    · rename_i w hc
      split at hs
      · cases hs
      · rename_i c hlookup
        cases hs
        have hconv : vocabulary.conversion? (.path leading ss) = some c := by
          rw [Vocabulary.conversion?, hscalar, if_pos]
          · exact hlookup
          · refine ⟨rfl, ?_⟩
            show (TypeExpr.path leading ss).contents.isEmpty = true
            rw [TypeExpr.contents_path hlast, Segment.contents, if_neg hform]
            rfl
        obtain ⟨s', hs', -⟩ := hstore _ c List.mem_cons_self hconv
        exact ⟨.converted rfl hc hscalar hconv, s', hs'⟩

end LaidOut

end Marshal
