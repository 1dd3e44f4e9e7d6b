import Mathlib.Data.List.Basic
import Marshal.Proofs.Wire
import Marshal.Field.Build

/-!
# Which types have a field tree

A field tree is built for a type from the types of what it contains (`TypeExpr.contents`): what
stands in brackets, the element of an array, and the arguments of a container, which is a path that
ends in the name of one with the right number of types as arguments.  `TypeExpr.positions` goes
through a type in this way from left to right.  What else a type mentions does not matter: every
path that is not a container is a leaf.

`LaidOut` is the grammar of the types that have a field tree, with the tree of each.  By
`Field.ofType_exactly` the tree is built for the types of this grammar and for no others.  These are
the types that have no type at any position that is refused by itself (`TypeExpr.refusal?`), and of
those that have one the leftmost decides why.
-/

namespace Marshal

/-! ### What a type contains -/

/-- The type that an argument is. -/
def Argument.type? : Argument → Option TypeExpr
  | type t => some t
  | lifetime _ | other _ => none

namespace Segment

/-- The types among the arguments of a segment, which are those in angle brackets. -/
def types : Segment → List TypeExpr
  | plain _ | parenthesised _ _ _ => []
  | applied _ _ arguments => arguments.filterMap Argument.type?

/-- The names of maps, each with a number of types that it takes. -/
def mapForms : List (String × Nat) := [("HashMap", 2), ("HashMap", 3), ("BTreeMap", 2)]

/-- The names of containers, each with a number of types that it takes. -/
def containerForms : List (String × Nat) := ("Vec", 1) :: ("Option", 1) :: mapForms

/-- The name of the segment with the number of its types. -/
def form (s : Segment) : String × Nat := (s.ident, s.types.length)

/-- The types of what a container contains.  A third type of a map does not count. -/
def contents (s : Segment) : List TypeExpr :=
  if s.form ∈ containerForms then s.types.take 2 else []

/-- The wire kind of a scalar, which is a name alone. -/
def wire? : Segment → Option Wire
  | plain ident => Wire.ofTypeName? ident
  | applied .. | parenthesised .. => none

end Segment

namespace TypeExpr

/-- The types that a field tree is built from. -/
def contents : TypeExpr → List TypeExpr
  | .paren t | .hidden t | .array t _ => [t]
  | .path _ segments => segments.getLast?.toList.flatMap Segment.contents
  | _ => []

theorem mem_of_mem_contents {s : Segment} {t : TypeExpr} (h : t ∈ s.contents) : t ∈ s.types := by
  unfold Segment.contents at h
  split_ifs at h
  · exact List.mem_of_mem_take h
  · cases h

theorem sizeOf_lt_of_mem_types {s : Segment} {t : TypeExpr} (h : t ∈ s.types) :
    sizeOf t < sizeOf s := by
  cases s with
  | plain | parenthesised => cases h
  | applied ident separate arguments =>
    obtain ⟨a, ha, hat⟩ := List.mem_filterMap.1 h
    have hlt := List.sizeOf_lt_of_mem ha
    cases a with
    | type =>
      cases hat
      simp only [Argument.type.sizeOf_spec] at hlt
      simp only [Segment.applied.sizeOf_spec]
      omega
    | lifetime | other => cases hat

theorem sizeOf_lt_of_mem_contents {t u : TypeExpr} (h : u ∈ t.contents) : sizeOf u < sizeOf t := by
  cases t with
  | paren | hidden =>
    obtain rfl := List.mem_singleton.1 h
    simp
  | array =>
    obtain rfl := List.mem_singleton.1 h
    simp only [array.sizeOf_spec]
    omega
  | path leading segments =>
    obtain ⟨s, hs, hu⟩ := List.mem_flatMap.1 h
    have hsegment := List.sizeOf_lt_of_mem (List.mem_of_getLast? (Option.mem_toList.1 hs))
    have htype := sizeOf_lt_of_mem_types (mem_of_mem_contents hu)
    simp only [path.sizeOf_spec]
    omega
  | _ => cases h

/-- The type and all that it is built from, from left to right. -/
def positions (t : TypeExpr) : List TypeExpr :=
  t :: t.contents.attach.flatMap fun u => u.1.positions
termination_by t
decreasing_by exact sizeOf_lt_of_mem_contents u.2

theorem positions_eq (t : TypeExpr) : t.positions = t :: t.contents.flatMap positions := by
  rw [positions, List.flatMap_subtype (g := positions) fun _ _ => rfl, List.unattach_attach]

/-- Why a type is refused for what it is itself.  A path has at least one segment. -/
def refusal? : TypeExpr → Option BuildError
  | .associated .. => some .associatedType
  | .tuple _ => some .tupleType
  | .function _ => some .functionType
  | .traitObject _ | .someType _ => some .traitObjectType
  | .reference .. | .pointer .. => some .pointerType
  | .slice _ => some .unsizedSlice
  | .never | .infer | .invocation _ => some .unsupportedType
  | .path _ [] => some .emptyPath
  | .path _ (_ :: _) | .paren _ | .hidden _ | .array _ _ => none

/-- Why a type is refused: for the leftmost type among its positions that is refused for itself. -/
def firstRefusal? (t : TypeExpr) : Option BuildError := t.positions.findSome? refusal?

theorem firstRefusal?_eq (t : TypeExpr) :
    t.firstRefusal? = t.refusal?.or (t.contents.findSome? firstRefusal?) := by
  have hcontents : (t.contents.flatMap positions).findSome? refusal? =
      t.contents.findSome? firstRefusal? := by
    induction t.contents with
    | nil => rfl
    | cons u us ih =>
      rw [List.flatMap_cons, List.findSome?_append, ih, List.findSome?_cons]
      show u.firstRefusal?.or _ = _
      cases u.firstRefusal? <;> rfl
  rw [firstRefusal?, positions_eq, List.findSome?_cons, hcontents]
  cases t.refusal? <;> rfl

end TypeExpr

/-! ### The grammar -/

/-- The scalar types, each with the wire kind that it is written in by itself. -/
def Wire.ownKinds : List (String × Wire) :=
  [("u8", .fixed ⟨false, .w8⟩), ("i8", .fixed ⟨true, .w8⟩), ("usize", .var ⟨false, .machine⟩),
    ("isize", .var ⟨true, .machine⟩), ("u16", .var ⟨false, .w16⟩), ("u32", .var ⟨false, .w32⟩),
    ("u64", .var ⟨false, .w64⟩), ("i16", .var ⟨true, .w16⟩), ("i32", .var ⟨true, .w32⟩),
    ("i64", .var ⟨true, .w64⟩), ("f32", .float .single), ("f64", .float .double),
    ("bool", .bool), ("String", .text)]

theorem Wire.ofTypeName?_eq_some_iff {name : String} {w : Wire} :
    ofTypeName? name = some w ↔ (name, w) ∈ ownKinds := by
  constructor
  · intro h
    obtain ⟨s, hs, rfl⟩ := Option.map_eq_some_iff.1 h
    have hname : s.name = name := by simpa using List.find?_some hs
    have hall : ∀ s ∈ Scalar.all, (s.name, s.wire) ∈ ownKinds := by decide
    exact hname ▸ hall s (List.mem_of_find?_eq_some hs)
  · intro h
    have hall : ∀ x ∈ ownKinds, ofTypeName? x.1 = some x.2 := by decide
    exact hall _ h

/-- The field tree of a type that stands `n` containers deep. -/
inductive LaidOut : TypeExpr → (n : Nat) → Field → Prop where
  | paren {t n f} (h : LaidOut t n f) : LaidOut (.paren t) n f
  | hidden {t n f} (h : LaidOut t n f) : LaidOut (.hidden t) n f
  | array {t length n f} (h : LaidOut t (n + 1) f) :
      LaidOut (.array t length) n (.array {} (.array t length) n f)
  | sequence {leading ss s t n f} (hs : ss.getLast? = some s) (hi : s.ident = "Vec")
      (ht : s.types = [t]) (h : LaidOut t (n + 1) f) :
      LaidOut (.path leading ss) n (.sequence {} (.path leading ss) n f)
  | optional {leading ss s t n f} (hs : ss.getLast? = some s) (hi : s.ident = "Option")
      (ht : s.types = [t]) (h : LaidOut t (n + 1) f) :
      LaidOut (.path leading ss) n (.optional {} (.path leading ss) n f)
  | map {leading ss s tk tv ts n fk fv} (hs : ss.getLast? = some s)
      (hform : s.form ∈ Segment.mapForms) (ht : s.types = tk :: tv :: ts)
      (hk : LaidOut tk (n + 1) fk) (hv : LaidOut tv (n + 1) fv) :
      LaidOut (.path leading ss) n (.map {} (.path leading ss) n fk fv)
  /-- A scalar: a name alone. -/
  | scalar {leading ss ident w n} (hs : ss.getLast? = some (.plain ident))
      (hw : (ident, w) ∈ Wire.ownKinds) :
      LaidOut (.path leading ss) n (.leaf {} (.path leading ss) (some w))
  /-- Any other path, whatever its arguments. -/
  | delegate {leading ss s n} (hs : ss.getLast? = some s)
      (hform : s.form ∉ Segment.containerForms)
      (hw : ∀ ident w, s = .plain ident → (ident, w) ∉ Wire.ownKinds) :
      LaidOut (.path leading ss) n (.leaf {} (.path leading ss) none)

/-! ### Building -/

/-- A segment is one of a sequence, of an optional value, of a map or of no container. -/
theorem Segment.form_cases (s : Segment) :
    (∃ t, s.ident = "Vec" ∧ s.types = [t]) ∨ (∃ t, s.ident = "Option" ∧ s.types = [t]) ∨
      (∃ tk tv ts, s.form ∈ mapForms ∧ s.types = tk :: tv :: ts) ∨ s.form ∉ containerForms := by
  by_cases h : s.form ∈ containerForms
  · rcases List.mem_cons.1 h with h | h
    · obtain ⟨hi, ht⟩ := Prod.mk.inj h
      obtain ⟨t, ht⟩ := List.length_eq_one_iff.1 ht
      exact .inl ⟨t, hi, ht⟩
    · rcases List.mem_cons.1 h with h | h
      · obtain ⟨hi, ht⟩ := Prod.mk.inj h
        obtain ⟨t, ht⟩ := List.length_eq_one_iff.1 ht
        exact .inr (.inl ⟨t, hi, ht⟩)
      · have hlength : ∀ x ∈ mapForms, 2 ≤ x.2 := by decide
        have htypes : 2 ≤ s.types.length := hlength _ h
        rcases ht : s.types with _ | ⟨tk, _ | ⟨tv, ts⟩⟩
        · simp [ht] at htypes
        · simp [ht] at htypes
        · exact .inr (.inr (.inl ⟨tk, tv, ts, h, rfl⟩))
  · exact .inr (.inr (.inr h))

theorem Segment.form_plain_notMem (ident : String) :
    (Segment.plain ident).form ∉ containerForms := by
  have hpos : ∀ x ∈ containerForms, 0 < x.2 := by decide
  exact fun h => absurd (hpos _ h) (lt_irrefl 0)

namespace Field

theorem argumentFields_eq (as : List Argument) (n : Nat) :
    argumentFields as n = (as.filterMap Argument.type?).map (ofType · n) := by
  induction as with
  | nil => simp [argumentFields]
  | cons a as ih => cases a <;> simp [argumentFields, List.filterMap_cons, Argument.type?, ih]

theorem segmentFields_eq (s : Segment) (n : Nat) :
    segmentFields s n = s.types.map (ofType · n) := by
  cases s with
  | plain | parenthesised => simp [segmentFields, Segment.types]
  | applied ident separate arguments =>
    rw [segmentFields, argumentFields_eq, Segment.types]

theorem ofType_path {leading : Bool} {ss : List Segment} {s : Segment}
    (hs : ss.getLast? = some s) (n : Nat) :
    ofType (.path leading ss) n =
      ofSegment (.path leading ss) n s (s.types.map (ofType · (n + 1))) := by
  rw [ofType]
  -- the whole path goes into the tree, however many segments are left to look at
  generalize TypeExpr.path leading ss = type
  induction ss with
  | nil => cases hs
  | cons s' ss ih =>
    cases ss with
    | nil =>
      obtain rfl : s' = s := Option.some.inj hs
      rw [ofSegments, segmentFields_eq]
    | cons s'' ss =>
      rw [ofSegments]
      exact ih (by simpa using hs)

section Segments

variable {s : Segment} (type : TypeExpr) (n : Nat) (x y : Except BuildError Field)
  {xs : List (Except BuildError Field)}

theorem ofSegment_sequence (hi : s.ident = "Vec") :
    ofSegment type n s [x] = x.map (.sequence {} type n) := by
  unfold ofSegment
  rw [hi]
  cases x <;> rfl

theorem ofSegment_optional (hi : s.ident = "Option") :
    ofSegment type n s [x] = x.map (.optional {} type n) := by
  unfold ofSegment
  rw [hi]
  cases x <;> rfl

theorem ofSegment_map (hform : (s.ident, (x :: y :: xs).length) ∈ Segment.mapForms) :
    ofSegment type n s (x :: y :: xs) = x.bind fun fk => y.map (.map {} type n fk) := by
  simp only [Segment.mapForms, List.mem_cons, List.not_mem_nil, or_false, Prod.mk.injEq,
    List.length_cons] at hform
  unfold ofSegment
  rcases hform with ⟨hi, hlen⟩ | ⟨hi, hlen⟩ | ⟨hi, hlen⟩
  · obtain rfl : xs = [] := List.length_eq_zero_iff.1 (by omega)
    rw [hi]
    cases x <;> cases y <;> rfl
  · obtain ⟨z, rfl⟩ : ∃ z, xs = [z] := List.length_eq_one_iff.1 (by omega)
    rw [hi]
    cases x <;> cases y <;> rfl
  · obtain rfl : xs = [] := List.length_eq_zero_iff.1 (by omega)
    rw [hi]
    cases x <;> cases y <;> rfl

theorem ofSegment_leaf (hform : (s.ident, xs.length) ∉ Segment.containerForms) :
    ofSegment type n s xs = .ok (.leaf {} type s.wire?) := by
  unfold ofSegment
  split
  case h_6 => cases s <;> rfl
  all_goals
    rename_i hi
    simp [hi, Segment.containerForms, Segment.mapForms] at hform

end Segments

variable {leading : Bool} {ss : List Segment} {s : Segment} {t tk tv : TypeExpr}
  {ts : List TypeExpr}

theorem ofType_array (length : String) (n : Nat) : ofType (.array t length) n =
    (ofType t (n + 1)).map (.array {} (.array t length) n) := by
  rw [ofType]
  cases ofType t (n + 1) <;> rfl

theorem ofType_sequence (hs : ss.getLast? = some s) (hi : s.ident = "Vec") (ht : s.types = [t])
    (n : Nat) : ofType (.path leading ss) n =
      (ofType t (n + 1)).map (.sequence {} (.path leading ss) n) := by
  rw [ofType_path hs, ht]
  exact ofSegment_sequence _ n _ hi

theorem ofType_optional (hs : ss.getLast? = some s) (hi : s.ident = "Option")
    (ht : s.types = [t]) (n : Nat) : ofType (.path leading ss) n =
      (ofType t (n + 1)).map (.optional {} (.path leading ss) n) := by
  rw [ofType_path hs, ht]
  exact ofSegment_optional _ n _ hi

theorem ofType_map (hs : ss.getLast? = some s) (hform : s.form ∈ Segment.mapForms)
    (ht : s.types = tk :: tv :: ts) (n : Nat) : ofType (.path leading ss) n =
      (ofType tk (n + 1)).bind fun fk =>
        (ofType tv (n + 1)).map (.map {} (.path leading ss) n fk) := by
  rw [Segment.form, ht] at hform
  rw [ofType_path hs, ht]
  exact ofSegment_map _ n _ _ (by simpa using hform)

theorem ofType_leaf (hs : ss.getLast? = some s) (hform : s.form ∉ Segment.containerForms)
    (n : Nat) : ofType (.path leading ss) n = .ok (.leaf {} (.path leading ss) s.wire?) := by
  rw [ofType_path hs]
  exact ofSegment_leaf _ n (by rwa [List.length_map])

end Field

namespace LaidOut

variable {leading : Bool} {ss : List Segment} {s : Segment} {t : TypeExpr} {f : Field} {n : Nat}

theorem leaf (hs : ss.getLast? = some s) (hform : s.form ∉ Segment.containerForms) (n : Nat) :
    LaidOut (.path leading ss) n (.leaf {} (.path leading ss) s.wire?) := by
  rcases hw : s.wire? with _ | w
  · refine .delegate hs hform ?_
    rintro ident w rfl hmem
    rw [Segment.wire?, Wire.ofTypeName?_eq_some_iff.2 hmem] at hw
    cases hw
  · cases s with
    | plain ident => exact .scalar hs (Wire.ofTypeName?_eq_some_iff.1 hw)
    | applied | parenthesised => cases hw

theorem ofType_eq (h : LaidOut t n f) : Field.ofType t n = .ok f := by
  induction h with
  | paren _ ih | hidden _ ih =>
    rw [Field.ofType]
    exact ih
  | array _ ih =>
    rw [Field.ofType_array, ih]
    rfl
  | sequence hs hi ht _ ih =>
    rw [Field.ofType_sequence hs hi ht, ih]
    rfl
  | optional hs hi ht _ ih =>
    rw [Field.ofType_optional hs hi ht, ih]
    rfl
  | map hs hform ht _ _ ihk ihv =>
    rw [Field.ofType_map hs hform ht, ihk, ihv]
    rfl
  | @scalar _ _ ident _ _ hs hw =>
    rw [Field.ofType_leaf hs (Segment.form_plain_notMem ident), Segment.wire?,
      Wire.ofTypeName?_eq_some_iff.2 hw]
  | @delegate _ _ s _ hs hform hw =>
    have hnone : s.wire? = none := by
      cases s with
      | applied | parenthesised => rfl
      | plain ident =>
        refine Option.eq_none_iff_forall_ne_some.2 fun w h => hw ident w rfl ?_
        exact Wire.ofTypeName?_eq_some_iff.1 h
    rw [Field.ofType_leaf hs hform, hnone]

end LaidOut

namespace TypeExpr

variable {leading : Bool} {ss : List Segment} {s : Segment} {t u tk tv : TypeExpr}
  {ts : List TypeExpr}

theorem inductionOnContents {motive : TypeExpr → Prop}
    (h : ∀ t, (∀ u ∈ t.contents, motive u) → motive t) (t : TypeExpr) : motive t :=
  h t fun u _ => inductionOnContents h u
termination_by t
decreasing_by exact sizeOf_lt_of_mem_contents ‹_›

theorem contents_path (hs : ss.getLast? = some s) : (path leading ss).contents = s.contents := by
  simp [contents, hs]

theorem refusal?_path (hs : ss.getLast? = some s) : (path leading ss).refusal? = none := by
  cases ss with
  | nil => cases hs
  | cons => rfl

theorem firstRefusal?_single (ht : t.refusal? = none) (hc : t.contents = [u]) :
    t.firstRefusal? = u.firstRefusal? := by
  rw [firstRefusal?_eq, ht, hc, List.findSome?_singleton, Option.none_or]

theorem firstRefusal?_pair (ht : t.refusal? = none) (hc : t.contents = [tk, tv]) :
    t.firstRefusal? = tk.firstRefusal?.or tv.firstRefusal? := by
  rw [firstRefusal?_eq, ht, hc, List.findSome?_cons, List.findSome?_singleton, Option.none_or]
  cases tk.firstRefusal? <;> rfl

theorem firstRefusal?_of_nil (hc : t.contents = []) : t.firstRefusal? = t.refusal? := by
  rw [firstRefusal?_eq, hc, List.findSome?_nil, Option.or_none]

/-- The type has its place in the grammar and nothing in it is refused, or it is refused for the
leftmost reason. -/
def Decided (t : TypeExpr) (n : Nat) : Prop :=
  (t.firstRefusal? = none ∧ ∃ f, LaidOut t n f) ∨
    ∃ e, t.firstRefusal? = some e ∧ Field.ofType t n = .error e

/-- A type that contains one other is decided as that one is. -/
theorem Decided.around {n n' : Nat} {c : Field → Field} (h : u.Decided n')
    (ht : t.refusal? = none) (hc : t.contents = [u])
    (hof : Field.ofType t n = (Field.ofType u n').map c)
    (hlaid : ∀ f, LaidOut u n' f → LaidOut t n (c f)) : t.Decided n := by
  rw [Decided, firstRefusal?_single ht hc, hof]
  obtain ⟨hnone, f, hf⟩ | ⟨e, he, hu⟩ := h
  · exact .inl ⟨hnone, c f, hlaid f hf⟩
  · exact .inr ⟨e, he, by rw [hu]; rfl⟩

theorem contents_of_form (hs : ss.getLast? = some s) (hform : s.form ∈ Segment.containerForms) :
    (path leading ss).contents = s.types.take 2 := by
  rw [contents_path hs, Segment.contents, if_pos hform]

theorem decided_path (hs : ss.getLast? = some s) {n : Nat}
    (h : ∀ u ∈ (path leading ss).contents, u.Decided (n + 1)) : (path leading ss).Decided n := by
  have hself : (path leading ss).refusal? = none := refusal?_path hs
  obtain ⟨t, hi, ht⟩ | ⟨t, hi, ht⟩ | ⟨tk, tv, ts, hform, ht⟩ | hform := s.form_cases
  · have hc : (path leading ss).contents = [t] := by
      rw [contents_of_form hs (by simp [Segment.form, hi, ht, Segment.containerForms]), ht]
      rfl
    exact (h t (by simp [hc])).around hself hc (Field.ofType_sequence hs hi ht n)
      fun f => .sequence hs hi ht
  · have hc : (path leading ss).contents = [t] := by
      rw [contents_of_form hs (by simp [Segment.form, hi, ht, Segment.containerForms]), ht]
      rfl
    exact (h t (by simp [hc])).around hself hc (Field.ofType_optional hs hi ht n)
      fun f => .optional hs hi ht
  · have hc : (path leading ss).contents = [tk, tv] := by
      rw [contents_of_form hs (by simp [Segment.containerForms, hform]), ht]
      rfl
    rw [Decided, firstRefusal?_pair hself hc, Field.ofType_map hs hform ht]
    -- the key comes first, and the value is only looked at if nothing is wrong with the key
    obtain ⟨hnone, fk, hfk⟩ | ⟨e, he, hof⟩ := h tk (by simp [hc])
    · rw [hnone, Option.none_or, hfk.ofType_eq]
      obtain ⟨hnone, fv, hfv⟩ | ⟨e, he, hof⟩ := h tv (by simp [hc])
      · exact .inl ⟨hnone, _, .map hs hform ht hfk hfv⟩
      · exact .inr ⟨e, he, by rw [hof]; rfl⟩
    · exact .inr ⟨e, by rw [he]; rfl, by rw [hof]; rfl⟩
  · have hc : (path leading ss).contents = [] := by
      rw [contents_path hs, Segment.contents, if_neg hform]
    exact .inl ⟨(firstRefusal?_of_nil hc).trans hself, _, .leaf hs hform n⟩

theorem decided (t : TypeExpr) : ∀ n, t.Decided n := by
  induction t using inductionOnContents with
  | h t ih =>
    intro n
    cases t with
    | paren t =>
      refine (ih t List.mem_cons_self n).around (c := id) rfl rfl ?_ fun f => .paren
      rw [Field.ofType, Except.map_id]
      rfl
    | hidden t =>
      refine (ih t List.mem_cons_self n).around (c := id) rfl rfl ?_ fun f => .hidden
      rw [Field.ofType, Except.map_id]
      rfl
    | array t length =>
      exact (ih t List.mem_cons_self (n + 1)).around rfl rfl (Field.ofType_array length n)
        fun f => .array
    | path leading ss =>
      rcases hs : ss.getLast? with _ | s
      · obtain rfl := List.getLast?_eq_none_iff.1 hs
        exact .inr ⟨_, firstRefusal?_of_nil rfl, by simp only [Field.ofType, Field.ofSegments]⟩
      · exact decided_path hs fun u hu => ih u hu (n + 1)
    | _ => exact .inr ⟨_, firstRefusal?_of_nil rfl, by rw [Field.ofType]⟩

end TypeExpr

namespace Field

variable {t : TypeExpr} {n : Nat}

theorem ofType_eq_ok_iff {f : Field} : ofType t n = .ok f ↔ LaidOut t n f := by
  refine ⟨fun h => ?_, LaidOut.ofType_eq⟩
  obtain ⟨-, g, hg⟩ | ⟨e, -, he⟩ := t.decided n
  · cases hg.ofType_eq.symm.trans h
    exact hg
  · cases he.symm.trans h

theorem ofType_eq_error_iff {e : BuildError} :
    ofType t n = .error e ↔ t.firstRefusal? = some e := by
  obtain ⟨hnone, f, hf⟩ | ⟨e', hsome, he'⟩ := t.decided n
  · simp [hf.ofType_eq, hnone]
  · simp [he', hsome]

/-- **Types with a field tree.**  A field tree is built for a type, at any depth, just if no type at
any of its positions is refused for itself.  It is the tree that the grammar has for the type: in
particular every path that is not a container becomes a leaf, whatever its arguments, and it is a
scalar just if it ends in the name of one alone.  Otherwise the type is refused for the leftmost of
its positions at which there is a reason. -/
theorem ofType_exactly (t : TypeExpr) (depth : Nat) :
    ((∃ f, ofType t depth = .ok f) ↔ ∀ u ∈ t.positions, u.refusal? = none) ∧
    (∀ f, ofType t depth = .ok f ↔ LaidOut t depth f) ∧
    ∀ e, ofType t depth = .error e ↔ t.positions.findSome? TypeExpr.refusal? = some e := by
  refine ⟨?_, fun f => ofType_eq_ok_iff, fun e => ofType_eq_error_iff⟩
  rw [← List.findSome?_eq_none_iff, ← TypeExpr.firstRefusal?]
  obtain ⟨hnone, f, hf⟩ | ⟨e, he, hof⟩ := t.decided depth
  · exact iff_of_true ⟨f, hf.ofType_eq⟩ hnone
  · simp [he, hof]

/-- The tuple in the value of the map is refused before the reference.  The third argument of the
map would not be looked at. -/
example :
    ofType (.apply "HashMap" [.named "u8",
      .apply "HashMap" [.apply "Result" [.never], .tuple [], .pointer true .infer],
      .reference none false (.named "str")]) 0 = .error .tupleType := rfl

/-- Types in parentheses are no arguments of a container. -/
example :
    let t := TypeExpr.path false [.parenthesised "Vec" [.named "u8"] none]
    ofType t 0 = .ok (.leaf {} t none) := rfl

end Field

end Marshal
