import Marshal.Catalogue.Basic
import Marshal.Implementation.Definition
import Marshal.Proofs.CastCode
import Marshal.Proofs.Comparing
import Marshal.Proofs.Reading
import Marshal.Proofs.Writing

/-!
# Running the procedures of a record and of a member

The code of a record is that of its parts, one after the other and without the parts that are left
out.  Run in a memory with the parts of a value (`frame`), it does what the schema says of the whole
record: it appends the encoding (`Model.Declared.run_encodeCode`), decodes the parts in place, also
up to a fault (`Model.Declared.run_decodeCode`), and compares two values
(`Model.Declared.run_equalityCode`).  The code of a member of a union does the same with what the
member wraps (`Model.Defined`).

When code is run, a call of the code of a declared type is taken to do what the schema says of that
type.  That the code emitted for the type does so is what is shown here, for all records and
holders of a package (`Package.declared_of_find`, `Package.defined_of_find`).
-/

namespace Marshal

variable {vocabulary : Vocabulary} {Γ : Schema}

/-! ### Parts -/

/-- The type of the place that the code of a field is for.  A type that is another name for a type
has its only part in a place of that type. -/
def Field.placeType : Field → TypeExpr
  | synonym _ _ _ inner => inner.type
  | f => f.type

/-- The field of a part stands for what is at a place of the type, which is laid out as the shape
says. -/
inductive PlacedPart (vocabulary : Vocabulary) : TypeExpr → Field → Shape → Prop where
  | field {t f s} (h : Placed vocabulary t f s) : PlacedPart vocabulary t f s
  | synonym {t info ident n f s} (h : Placed vocabulary t f s) :
      PlacedPart vocabulary t (.synonym info ident n f) (.staged s)
  | member {t info tag n f s} (h : Placed vocabulary t f s) :
      PlacedPart vocabulary t (.member info tag n f) s

theorem Reader.map_id {α : Type} (r : Reader α) : r.map id = r := by
  funext bs
  rw [Reader.map]
  cases r bs <;> rfl

namespace PlacedPart

variable {t : TypeExpr} {f : Field} {s : Shape} {p q : Place} {n : Nat} {st : State}
  {v r a b : Value}

theorem at_placeType (h : PlacedPart vocabulary t f s) :
    PlacedPart vocabulary f.placeType f s := by
  cases h with
  | field h =>
    cases f with
    | synonym | member => cases h
    | leaf | array | sequence | map | optional => exact .field h.at_type
  | synonym h => exact .synonym h.at_type
  | member h => exact .member h.at_type

theorem run_encodeCode (h : PlacedPart vocabulary t f s) (hn : f.CountsFrom n) (hp : p.Under n)
    (hr : p.read st.memory = some (t, v)) (hv : Γ.Fits s v) :
    (f.encodeCode p).run vocabulary Γ st = .done (st.append (Γ.encode .expanded s v)) := by
  cases h with
  | field h => exact h.run_encodeCode hn hp hr hv
  | @synonym _ _ d f s h =>
    obtain ⟨rfl, hn⟩ := hn
    cases hv with
    | staged hv =>
      simp only [Field.encodeCode, Code.run, State.within, State.enter_nil, hr, Exit.done_andThen]
      rw [h.run_encodeCode hn (Place.under_deref _ _) (Place.read_deref_head _ _ _ _) hv]
      simp only [Exit.leave, State.append, State.bind, Memory.leave_cons]
      rfl
  | member h =>
    obtain ⟨rfl, hn⟩ := hn
    exact h.run_encodeCode hn hp.succ hr hv

theorem run_decodeCode (h : PlacedPart vocabulary t f s) (hn : f.CountsFrom n) (hp : p.Under n)
    (ho : p.owned = true) (hr : p.read st.memory = some (t, r)) (hv : s.Receives r) :
    (f.decodeCode p).run vocabulary Γ st = st.settle p (Γ.decode .expanded s r st.rest) := by
  cases h with
  | field h => exact h.run_decodeCode hn hp ho hr hv
  | @synonym _ _ d f s h =>
    obtain ⟨rfl, hn⟩ := hn
    rw [Schema.decode_staged, ← Reader.map_id (Γ.decodeFresh .expanded s)]
    exact Code.run_fresh_store hp ho hr (h.at_type.fresh_value Γ)
      (fun st' hx => h.at_type.run_decodeCode hn (Place.under_var _ _) rfl hx (s.receives_blank Γ))
      fun st' w _ hx => by simp [Code.run, hx]
  | member h =>
    obtain ⟨rfl, hn⟩ := hn
    exact h.run_decodeCode hn hp.succ ho hr hv

theorem run_equalityCode (h : PlacedPart vocabulary t f s) (hn : f.CountsFrom n) (hp : p.Under n)
    (hq : q.Under n) (hr : p.read st.memory = some (t, a)) (hr' : q.read st.memory = some (t, b))
    (ha : Γ.Fits s a) (hb : Γ.Fits s b) :
    (f.equalityCode p q).run vocabulary Γ st = st.require (Γ.equals .expanded s a b) := by
  cases h with
  | field h => exact h.run_equalityCode hn hp hq hr hr' ha hb
  | @synonym _ _ d f s h =>
    obtain ⟨rfl, hn⟩ := hn
    cases ha with
    | staged ha =>
      cases hb with
      | staged hb =>
        have hr'' : q.read (st.bind ⟨.lhs, d⟩ (.reference t a)).memory = some (t, b) :=
          (Place.read_cons hq le_rfl _ _).trans hr'
        simp only [Field.equalityCode, Code.ofList, Code.run, State.within, State.enter_nil, hr,
          Exit.done_andThen, hr'']
        rw [h.run_equalityCode hn (Place.under_deref _ _) (Place.under_deref _ _)
          (Place.read_deref_next (by simp) _ _ _ _) (Place.read_deref_head _ _ _ _) ha hb]
        exact State.leave_require st [_, _] _
  | member h =>
    obtain ⟨rfl, hn⟩ := hn
    exact h.run_equalityCode hn hp.succ hq.succ hr hr' ha hb

end PlacedPart

theorem Field.build_placed {d : FieldDecl} {name : String} {n : Nat} {f : Field} {s : Shape}
    (h : Field.build name d n = .ok f) (hs : f.shape? vocabulary = some s)
    (hstore : f.StoresCarriers vocabulary f.modifiers.cast) : Placed vocabulary d.type f s := by
  obtain ⟨g, hg, hf⟩ := Field.build_eq_ok h
  obtain ⟨m, -, rfl⟩ := Field.finish_eq_ok hf
  rw [Field.modifiers_withModifiers] at hstore
  refine ((Field.ofType_eq_ok_iff.1 hg).placed name hs fun t c ht => hstore t c ?_).1
  rwa [Field.leaves_withModifiers, Field.leaves_withName]

/-- The field that is built from a declaration fits a place of the declared type. -/
theorem FieldDecl.Builds.placed {d : FieldDecl} {f : Field} {s : Shape} (h : d.Builds f)
    (hs : f.shape? vocabulary = some s)
    (hstore : f.StoresCarriers vocabulary f.modifiers.cast) :
    PlacedPart vocabulary d.type f s := by
  cases h with
  | field h => exact .field (Field.build_placed h hs hstore)
  | @synonym ident inner _ hinner h =>
    obtain ⟨m, -, rfl⟩ := Field.finish_eq_ok h
    obtain ⟨s', hs', rfl⟩ := Option.map_eq_some_iff.1 hs
    refine .synonym ((Field.ofType_eq_ok_iff.1 hinner).placed _ hs' fun t c ht => hstore t c ?_).1
    rwa [Field.leaves_withModifiers, Field.leaves_withName]
  | member tag h => exact .member (Field.build_placed h hs hstore)

/-- The field of a part of an accepted item fits a place of the type that it is for. -/
theorem Item.placed_modelAs {item : Item} {role : Role} {m : Model} {p : Part} {s : Shape}
    (h : (item.modelAs role).result = .ok m) (hp : p ∈ m.parts)
    (hs : p.field.shape? vocabulary = some s)
    (hstore : p.field.StoresCarriers vocabulary p.field.modifiers.cast) :
    PlacedPart vocabulary p.field.placeType p.field s := by
  have hall : List.Forall₂ (fun p d => (∃ d : FieldDecl, d.Builds p.field) ∧
      FieldDecl.Builds d p.field) m.parts item.fieldDecls :=
    (Item.builtFrom_modelAs h).flip.imp fun _ d hb => ⟨⟨d, hb⟩, hb⟩
  obtain ⟨d, hd⟩ := ((List.forall₂_and_left _ _).1 hall).1 p hp
  exact (hd.placed hs hstore).at_placeType

/-- What is known of a part and its slot. -/
structure Part.Fills (vocabulary : Vocabulary) (p : Part) (slot : Slot) : Prop where
  placed : PlacedPart vocabulary p.field.placeType p.field slot.shape
  counts : p.field.CountsFrom 0
  offWire : slot.offWire = p.field.modifiers.offWire
  uncompared : slot.uncompared = p.field.modifiers.uncompared

/-- The parts of an accepted item fill the slots that they have. -/
theorem Item.fills_modelAs {item : Item} {role : Role} {m : Model} {slots : List Slot}
    (h : (item.modelAs role).result = .ok m)
    (hslots : allSome (m.parts.map (Part.slot? vocabulary)) = some slots)
    (hstore : ∀ p ∈ m.parts, p.field.StoresCarriers vocabulary p.field.modifiers.cast) :
    List.Forall₂ (Part.Fills vocabulary) m.parts slots := by
  have hmem : ∀ p ∈ m.parts, p ∈ m.parts := fun _ => id
  refine ((List.forall₂_and_left _ _).2 ⟨hmem, forall₂_of_allSome hslots⟩).imp fun p slot hp => ?_
  obtain ⟨hp, hslot⟩ := hp
  rw [Part.slot?] at hslot
  split at hslot
  · cases hslot
  · rename_i s hs
    cases hslot
    exact ⟨Item.placed_modelAs h hp hs (hstore p hp), Item.countsFrom_modelAs h hp, rfl, rfl⟩

/-! ### Memory of a record -/

open Token in
/-- The name of a part of a value. -/
def Part.nameIn (p : Part) (value : String) : Name := .outer (words [value, ".", p.label.text])

/-- The parts of a value of a record, with what they hold. -/
def frame (value : String) : List Part → List Value → Memory :=
  List.zipWith fun p v => (p.nameIn value, .value p.field.placeType v)

theorem Part.nameIn_inj {p q : Part} {value value' : String}
    (h : p.nameIn value = q.nameIn value') : value = value' ∧ p.label.text = q.label.text := by
  simpa [nameIn, Token.words] using h

theorem Part.placeIn_under (p : Part) (value : String) (n : Nat) : (p.placeIn value).Under n :=
  trivial

namespace Memory

variable {name : Name} {pre m : Memory}

theorem lookup_append_of_notMem (h : ∀ e ∈ pre, e.1 ≠ name) :
    (pre ++ m).lookup name = m.lookup name := by
  induction pre with
  | nil => rfl
  | cons e pre ih =>
    rw [List.cons_append, lookup_cons_of_ne (h e List.mem_cons_self).symm]
    exact ih fun e' he' => h e' (List.mem_cons_of_mem _ he')

theorem assign_append_of_notMem (h : ∀ e ∈ pre, e.1 ≠ name) (v : Value) :
    (pre ++ m).assign name v = pre ++ m.assign name v := by
  induction pre with
  | nil => rfl
  | cons e pre ih =>
    rw [List.cons_append, assign_cons_of_ne (h e List.mem_cons_self).symm]
    exact congrArg _ (ih fun e' he' => h e' (List.mem_cons_of_mem _ he'))

end Memory

section Frame

variable {ps : List Part} {slots : List Slot} {vs as bs : List Value} {value : String} {m : Memory}

theorem frame_cons (value : String) (p : Part) (ps : List Part) (v : Value) (vs : List Value) :
    frame value (p :: ps) (v :: vs) =
      (p.nameIn value, .value p.field.placeType v) :: frame value ps vs := rfl

theorem exists_of_mem_frame {e : Name × Binding} (h : e ∈ frame value ps vs) :
    ∃ p ∈ ps, e.1 = p.nameIn value := by
  induction ps generalizing vs with
  | nil => cases h
  | cons p ps ih =>
    cases vs with
    | nil => cases h
    | cons v vs =>
      rw [frame_cons] at h
      rcases List.mem_cons.1 h with rfl | h
      · exact ⟨p, List.mem_cons_self, rfl⟩
      · obtain ⟨q, hq, he⟩ := ih h
        exact ⟨q, List.mem_cons_of_mem _ hq, he⟩

/-- A part is found in the memory of its value, if no two parts have the same label. -/
theorem read_frame (hps : (ps.map fun p => p.label.text).Nodup) {p : Part} {v : Value}
    (h : (p, v) ∈ ps.zip vs) :
    (p.placeIn value).read (frame value ps vs ++ m) = some (p.field.placeType, v) := by
  show ((frame value ps vs ++ m).lookup (p.nameIn value)).bind Binding.value? = _
  induction ps generalizing vs with
  | nil => cases h
  | cons q ps ih =>
    cases vs with
    | nil => cases h
    | cons w vs =>
      rw [List.map_cons, List.nodup_cons] at hps
      rw [frame_cons, List.cons_append]
      rcases List.mem_cons.1 h with heq | h
      · cases heq
        rw [List.lookup_cons_self]
        rfl
      · have hne : p.nameIn value ≠ q.nameIn value := fun heq =>
          hps.1 (List.mem_map.2 ⟨p, (List.of_mem_zip h).1, (Part.nameIn_inj heq).2⟩)
        rw [Memory.lookup_cons_of_ne hne]
        exact ih hps.2 h

/-- The parts of one value are not in the way of those of another. -/
theorem read_frame_append {value' : String} (hne : value ≠ value') (p : Part) :
    (p.placeIn value').read (frame value ps vs ++ m) = (p.placeIn value').read m := by
  have hnotMem : ∀ e ∈ frame value ps vs, e.1 ≠ p.nameIn value' := by
    intro e he heq
    obtain ⟨q, -, hq⟩ := exists_of_mem_frame he
    exact hne (Part.nameIn_inj (hq.symm.trans heq)).1
  exact congrArg (Option.bind · Binding.value?) (Memory.lookup_append_of_notMem hnotMem)

section Head

variable {pre : Memory} {p : Part} {v : Value}

theorem read_frame_head (h : ∀ e ∈ pre, e.1 ≠ p.nameIn value) :
    (p.placeIn value).read (pre ++ frame value (p :: ps) (v :: vs)) =
      some (p.field.placeType, v) := by
  show ((pre ++ frame value (p :: ps) (v :: vs)).lookup (p.nameIn value)).bind Binding.value? = _
  rw [Memory.lookup_append_of_notMem h, frame_cons, List.lookup_cons_self]
  rfl

theorem put_frame_head (h : ∀ e ∈ pre, e.1 ≠ p.nameIn value) (w : Value) :
    (p.placeIn value).put (pre ++ frame value (p :: ps) (v :: vs)) w =
      pre ++ frame value (p :: ps) (w :: vs) := by
  show (pre ++ frame value (p :: ps) (v :: vs)).assign (p.nameIn value) w = _
  rw [Memory.assign_append_of_notMem h, frame_cons, frame_cons, Memory.assign, if_pos rfl]
  rfl

end Head

/-- The code of the parts on the wire writes what the slots say, one after the other. -/
theorem each_encodeCode {st : State} (hps : List.Forall₂ (Part.Fills vocabulary) ps slots)
    (hread : ∀ x ∈ ps.zip vs,
      (x.1.placeIn "self").read st.memory = some (x.1.field.placeType, x.2))
    (hvs : ∀ x ∈ slots.zip vs, x.1.offWire = false → Γ.Fits x.1.shape x.2)
    (hl : slots.length = vs.length) :
    State.each (fun p => (p.field.encodeCode (p.placeIn "self")).run vocabulary Γ)
        (ps.filter fun p => !p.field.modifiers.offWire) st =
      .done (st.append ((slots.zip vs).flatMap fun x =>
        if x.1.offWire then [] else Γ.encode .expanded x.1.shape x.2)) := by
  induction hps generalizing vs st with
  | nil => simp [State.each, State.append_nil]
  | @cons p slot ps slots hp hps ih =>
    cases vs with
    | nil => cases hl
    | cons v vs =>
      have htail (st' : State) (hst : st'.memory = st.memory) := @ih vs st'
        (fun x hx => hst ▸ hread x (List.mem_cons_of_mem _ hx))
        (fun x hx => hvs x (List.mem_cons_of_mem _ hx)) (Nat.succ.inj hl)
      rw [List.filter_cons, List.zip_cons_cons, List.flatMap_cons, ← hp.offWire]
      cases ho : slot.offWire with
      | true => simpa using htail st rfl
      | false =>
        have hcode := hp.placed.run_encodeCode hp.counts (p.placeIn_under "self" 0)
          (hread (p, v) List.mem_cons_self) (hvs (slot, v) List.mem_cons_self ho)
        simp only [Bool.not_false, ↓reduceIte, Bool.false_eq_true]
        rw [State.each, hcode, Exit.done_andThen, htail (st.append _) rfl, State.append_append]

/-- The code of the parts that are compared decides what the slots say. -/
theorem each_equalityCode {st : State} (hps : List.Forall₂ (Part.Fills vocabulary) ps slots)
    (hself : ∀ x ∈ ps.zip as,
      (x.1.placeIn "self").read st.memory = some (x.1.field.placeType, x.2))
    (hother : ∀ x ∈ ps.zip bs,
      (x.1.placeIn "other").read st.memory = some (x.1.field.placeType, x.2))
    (has : ∀ x ∈ slots.zip as, x.1.uncompared = false → Γ.Fits x.1.shape x.2)
    (hbs : ∀ x ∈ slots.zip bs, x.1.uncompared = false → Γ.Fits x.1.shape x.2)
    (hla : slots.length = as.length) (hlb : slots.length = bs.length) :
    State.each
        (fun p => (p.field.equalityCode (p.placeIn "self") (p.placeIn "other")).run vocabulary Γ)
        (ps.filter fun p => !p.field.modifiers.uncompared) st =
      st.require (((slots.zip as).zip bs).all fun x =>
        x.1.1.uncompared || Γ.equals .expanded x.1.1.shape x.1.2 x.2) := by
  induction hps generalizing as bs with
  | nil => rfl
  | @cons p slot ps slots hp hps ih =>
    cases as with
    | nil => cases hla
    | cons a as =>
      cases bs with
      | nil => cases hlb
      | cons b bs =>
        have htail := @ih as bs (fun x hx => hself x (List.mem_cons_of_mem _ hx))
          (fun x hx => hother x (List.mem_cons_of_mem _ hx))
          (fun x hx => has x (List.mem_cons_of_mem _ hx))
          (fun x hx => hbs x (List.mem_cons_of_mem _ hx)) (Nat.succ.inj hla) (Nat.succ.inj hlb)
        rw [List.filter_cons, List.zip_cons_cons, List.zip_cons_cons, List.all_cons,
          ← hp.uncompared]
        cases hu : slot.uncompared with
        | true => simpa using htail
        | false =>
          have hcode := hp.placed.run_equalityCode hp.counts (p.placeIn_under "self" 0)
            (p.placeIn_under "other" 0) (hself (p, a) List.mem_cons_self)
            (hother (p, b) List.mem_cons_self) (has (slot, a) List.mem_cons_self hu)
            (hbs (slot, b) List.mem_cons_self hu)
          simp only [Bool.not_false, ↓reduceIte, Bool.false_or]
          rw [State.each, hcode]
          exact State.require_andThen st _ _ fun _ => htail

/-- The code of the parts on the wire decodes the slots in place, one after the other. -/
theorem each_decodeCode {st : State} (hps : List.Forall₂ (Part.Fills vocabulary) ps slots)
    (hnodup : (ps.map fun p => p.label.text).Nodup) (pre : Memory)
    (hpre : ∀ p ∈ ps, ∀ e ∈ pre, e.1 ≠ p.nameIn "self")
    (hst : st.memory = pre ++ frame "self" ps vs)
    (hvs : ∀ x ∈ slots.zip vs, x.1.offWire = false → x.1.shape.Receives x.2)
    (hl : slots.length = vs.length) :
    State.each (fun p => (p.field.decodeCode (p.placeIn "self")).run vocabulary Γ)
        (ps.filter fun p => !p.field.modifiers.offWire) st =
      st.finish (decodeSlots (slots.map Γ.decodeSlot) vs st.rest).1
        (pre ++ frame "self" ps (decodeSlots (slots.map Γ.decodeSlot) vs st.rest).2) := by
  induction hps generalizing vs st pre with
  | nil =>
    obtain ⟨memory, buffer, input, offset⟩ := st
    obtain rfl := List.length_eq_zero_iff.1 hl.symm
    cases hst
    rfl
  | @cons p slot ps slots hp hps ih =>
    cases vs with
    | nil => cases hl
    | cons v vs =>
      rw [List.map_cons, List.nodup_cons] at hnodup
      -- behind the part its name is among those that the code of the other parts does not touch
      have hpre' (w : Value) : ∀ q ∈ ps,
          ∀ e ∈ pre ++ [(p.nameIn "self", .value p.field.placeType w)], e.1 ≠ q.nameIn "self" := by
        intro q hq e he
        rcases List.mem_append.1 he with he | he
        · exact hpre q (List.mem_cons_of_mem _ hq) e he
        · obtain rfl := List.mem_singleton.1 he
          exact fun heq => hnodup.1 (List.mem_map.2 ⟨q, hq, (Part.nameIn_inj heq).2.symm⟩)
      have htail (st' : State) (w : Value)
          (hst' : st'.memory = pre ++ frame "self" (p :: ps) (w :: vs)) :=
        @ih vs st' hnodup.2 _ (hpre' w) (by rw [hst', frame_cons]; simp)
          (fun x hx => hvs x (List.mem_cons_of_mem _ hx)) (Nat.succ.inj hl)
      rw [List.filter_cons, ← hp.offWire, List.map_cons, decodeSlots]
      cases ho : slot.offWire with
      | true =>
        have hkeep : Γ.decodeSlot slot v st.rest = ⟨.ok 0, v⟩ := by
          rw [Schema.decodeSlot, ho]
          rfl
        rw [hkeep]
        simp only [Bool.not_true, Bool.false_eq_true, ↓reduceIte, List.drop_zero, htail st v hst]
        rcases decodeSlots (slots.map Γ.decodeSlot) vs st.rest with ⟨e | k, ws⟩ <;>
          simp [State.finish, frame_cons]
      | false =>
        have hdecode : Γ.decodeSlot slot = Γ.decode .expanded slot.shape := by
          rw [Schema.decodeSlot, ho]
          rfl
        have hnotMem : ∀ e ∈ pre, e.1 ≠ p.nameIn "self" := hpre p List.mem_cons_self
        have hread : (p.placeIn "self").read st.memory = some (p.field.placeType, v) := by
          rw [hst, read_frame_head hnotMem]
        have hcode := hp.placed.run_decodeCode (Γ := Γ) hp.counts (p.placeIn_under "self" 0) rfl
          hread (hvs (slot, v) List.mem_cons_self ho)
        simp only [Bool.not_false, ↓reduceIte]
        rw [State.each, hcode, State.settle, if_pos (show (p.placeIn "self").owned = true from rfl),
          hst, put_frame_head hnotMem, hdecode]
        rcases Γ.decode .expanded slot.shape v st.rest with ⟨e | n, w⟩
        · rfl
        · simp only [State.finish, Exit.done_andThen]
          rw [htail _ w rfl, State.rest_add]
          rcases decodeSlots (slots.map Γ.decodeSlot) vs (st.rest.drop n) with ⟨e | k, ws⟩ <;>
            simp [State.finish, frame_cons, Nat.add_assoc]

end Frame

/-! ### Records -/

/-- The schema declares what the model of an accepted item stands for: a record with the slots of
its parts, which have labels of their own. -/
structure Model.Declared (vocabulary : Vocabulary) (Γ : Schema) (m : Model) (slots : List Slot) :
    Prop where
  accepted : ∃ (item : Item) (role : Role), (item.modelAs role).result = .ok m
  laidOut : allSome (m.parts.map (Part.slot? vocabulary)) = some slots
  find : Γ.find? m.name = some (.record slots)
  labels : (m.parts.map fun p => p.label.text).Nodup
  stores : ∀ p ∈ m.parts, p.field.StoresCarriers vocabulary p.field.modifiers.cast

open Catalogue TypeExpr in
/-- A record with types that are converted under a cast, and a part that is not compared. -/
example :
    let item := record "Laps"
      [field "laps" (vec (named "Millis")) [cast "u64"], field "marks" (opt u8) [skip "equality"]]
    ∃ m slots, (item.modelAs .record).result = .ok m ∧
      m.Declared Catalogue.vocabulary { decls := [("Laps", .record slots)] } slots := by
  intro item
  refine ⟨_, _, rfl, ⟨item, .record, rfl⟩, rfl, rfl, by decide, ?_⟩
  simp only [List.forall_mem_cons]
  refine ⟨fun t c ht _ => ?_, fun t c ht _ => ?_, List.forall_mem_nil _⟩
  · cases List.mem_singleton.1 ht
    exact ⟨_, rfl, fun hcast => absurd hcast (by decide)⟩
  · cases List.mem_singleton.1 ht

namespace Model.Declared

variable {m : Model} {slots : List Slot} {vs as bs : List Value} {st : State} {rest : Memory}

theorem fills (h : m.Declared vocabulary Γ slots) :
    List.Forall₂ (Part.Fills vocabulary) m.parts slots := by
  obtain ⟨item, role, hm⟩ := h.accepted
  exact Item.fills_modelAs hm h.laidOut h.stores

/-- The code that encodes a record appends its encoding. -/
theorem run_encodeCode (h : m.Declared vocabulary Γ slots)
    (hst : st.memory = frame "self" m.parts vs ++ rest)
    (hvs : Γ.Fits (.ref m.name) (.record vs)) :
    State.each (Code.run vocabulary Γ) m.encodeCode st =
      .done (st.append (Γ.encode .generic (.ref m.name) (.record vs))) := by
  cases hvs with
  | record hf hl hfit =>
    cases hf.symm.trans h.find
    rw [encodeCode, State.each_map, Schema.encode_record _ h.find]
    exact each_encodeCode h.fills (fun x hx => hst ▸ read_frame h.labels hx) hfit hl

/-- The code that decodes a record leaves of its parts what the decoder leaves of the record, also
when it fails. -/
theorem run_decodeCode (h : m.Declared vocabulary Γ slots) (hΓ : Γ.DefaultsFit)
    (hst : st.memory = frame "self" m.parts vs)
    (hvs : Γ.Fits (.ref m.name) (.record vs)) :
    ∃ result ws, Γ.decode .generic (.ref m.name) (.record vs) st.rest = ⟨result, .record ws⟩ ∧
      State.each (Code.run vocabulary Γ) m.decodeCode st =
        st.finish result (frame "self" m.parts ws) := by
  cases hvs with
  | record hf hl hfit =>
    cases hf.symm.trans h.find
    refine ⟨_, _, Schema.decode_record hΓ .generic h.find hl hfit _, ?_⟩
    rw [decodeCode, State.each_map]
    exact each_decodeCode h.fills h.labels [] (fun _ _ _ he => absurd he List.not_mem_nil) hst
      (fun x hx ho => (hfit x hx ho).receives) hl

/-- The code that compares two records goes on to its end if they are equal, and else says that
they are not. -/
theorem run_equalityCode (h : m.Declared vocabulary Γ slots)
    (hst : st.memory = frame "self" m.parts as ++ frame "other" m.parts bs)
    (has : ∀ x ∈ slots.zip as, x.1.uncompared = false → Γ.Fits x.1.shape x.2)
    (hbs : ∀ x ∈ slots.zip bs, x.1.uncompared = false → Γ.Fits x.1.shape x.2)
    (hla : slots.length = as.length) (hlb : slots.length = bs.length) :
    State.each (Code.run vocabulary Γ) m.equalityCode st =
      st.require (Γ.equals .generic (.ref m.name) (.record as) (.record bs)) := by
  rw [equalityCode, State.each_map, Schema.equals_record _ h.find hla.le hlb.le]
  refine each_equalityCode h.fills (fun x hx => hst ▸ read_frame h.labels hx) (fun x hx => ?_) has
    hbs hla hlb
  rw [hst, read_frame_append (by decide), ← List.append_nil (frame "other" m.parts bs)]
  exact read_frame h.labels hx

end Model.Declared

/-! ### Members of a union -/

/-- The model of an accepted union definition has the members `u`. -/
structure Model.Defined (vocabulary : Vocabulary) (m : Model) (u : Members) : Prop where
  accepted : ∃ item : Item, item.model.result = .ok m
  role : m.role = .definition
  laidOut : allSome (m.members.map (MemberEntry.member? vocabulary)) = some u
  stores : ∀ p ∈ m.parts, p.field.StoresCarriers vocabulary p.field.modifiers.cast

namespace Model.Defined

variable {m : Model} {u : Members} {e : MemberEntry} {member : Member} {st : State}
  {rest : Memory} {v a b : Value}

/-- An entry of the table stands for the member that carries its tag. -/
theorem member?_tag (h : m.Defined vocabulary u) (he : e ∈ m.members) :
    e.member? vocabulary = u.member? e.tag := by
  obtain ⟨item, hm⟩ := h.accepted
  obtain ⟨variants, -, hparts⟩ := Item.model_definition hm h.role
  obtain ⟨es, hes, -, htags, -⟩ := memberParts_eq_ok hparts
  obtain rfl : m.members = es := hes
  have hall := forall₂_of_allSome h.laidOut
  obtain ⟨i, hi, rfl⟩ := List.getElem_of_mem he
  have htag : m.members[i].tag = i + 1 := by
    have hlength : i < (m.members.map MemberEntry.tag).length := by rwa [List.length_map]
    rw [← List.getElem_map MemberEntry.tag (h := hlength)]
    simp only [htags, List.getElem_range']
    omega
  have hi' : i < u.length := hall.length_eq ▸ hi
  rw [htag, Members.member?, List.getElem?_eq_getElem hi']
  exact hall.get hi hi'

/-- The field of an entry fits a place of its type, and the names in it count on from the depth of
the entry. -/
theorem placed (h : m.Defined vocabulary u) (he : e ∈ m.members)
    (hm : u.member? e.tag = some member) :
    Placed vocabulary e.inner.type e.inner member.shape ∧ e.inner.CountsFrom (e.depth + 1) := by
  have hs := (MemberEntry.member?_eq_some ((h.member?_tag he).trans hm)).2
  obtain ⟨item, hmodel⟩ := h.accepted
  obtain ⟨o, -, hmodel⟩ := Traced.bind_eq_ok.1 hmodel
  obtain ⟨p, hp, hpe⟩ := List.mem_filterMap.1 he
  rw [Part.member?] at hpe
  split at hpe
  · rename_i variant info tag depth inner hl hf
    cases hpe
    have hs' : p.field.shape? vocabulary = some member.shape := by
      rw [hf]
      exact hs
    have hcounts := Item.countsFrom_modelAs hmodel hp
    have hplaced := Item.placed_modelAs hmodel hp hs' (h.stores p hp)
    rw [hf] at hcounts hplaced
    obtain ⟨rfl, hcounts⟩ := hcounts
    cases hplaced with
    | field h => cases h
    | member h => exact ⟨h, hcounts⟩
  · cases hpe

/-- The code that encodes a member appends what follows the tag in the encoding of a holder. -/
theorem run_encodeCode (h : m.Defined vocabulary u) (he : e ∈ m.members)
    (hm : u.member? e.tag = some member)
    (hst : st.memory = (.inner e.value, .reference e.inner.type v) :: rest)
    (hv : Γ.Fits member.shape v) :
    e.encodeCode.run vocabulary Γ st = .done (st.append (Γ.encode .expanded member.shape v)) := by
  obtain ⟨hplaced, hcounts⟩ := h.placed he hm
  have hread : (Place.deref e.value).read st.memory = some (e.inner.type, v) := by
    rw [hst, Place.read_deref_head]
  exact hplaced.run_encodeCode hcounts (Place.under_deref _ _) hread hv

/-- The code that decodes a member reads it afresh into a variable. -/
theorem run_decodeCode (h : m.Defined vocabulary u) (he : e ∈ m.members)
    (hm : u.member? e.tag = some member) :
    e.decodeCode.run vocabulary Γ st =
      st.finish (Γ.decode .expanded member.shape (Γ.blank member.shape) st.rest).result
        ((.inner e.value, .value e.inner.type
          (Γ.decode .expanded member.shape (Γ.blank member.shape) st.rest).receiver) ::
            st.memory) := by
  obtain ⟨hplaced, hcounts⟩ := h.placed he hm
  have hcode : (e.inner.decodeCode (.var e.value)).run vocabulary Γ
      (st.bind e.value (.value e.inner.type (Γ.blank member.shape))) = _ :=
    hplaced.run_decodeCode hcounts (Place.under_var _ _) rfl (Place.read_var_head _ _ _ _)
      (member.shape.receives_blank Γ)
  rw [State.settle_bind, State.rest_bind] at hcode
  rw [MemberEntry.decodeCode, Code.run, Code.run, hplaced.fresh_value Γ]
  exact hcode

/-- The code that compares what two values of a member wrap decides if the members are equal. -/
theorem run_equalityCode (h : m.Defined vocabulary u) (he : e ∈ m.members)
    (hm : u.member? e.tag = some member)
    (hst : st.memory = (.inner e.rhs, .reference e.inner.type b) ::
      (.inner e.lhs, .reference e.inner.type a) :: rest)
    (ha : Γ.Fits member.shape a) (hb : Γ.Fits member.shape b) :
    e.equalityCode.run vocabulary Γ st =
      st.require (Γ.equalMembers u (.member e.tag a) (.member e.tag b)) := by
  obtain ⟨hplaced, hcounts⟩ := h.placed he hm
  have hlhs : (Place.deref e.lhs).read st.memory = some (e.inner.type, a) := by
    rw [hst, Place.read_deref_next (by simp [MemberEntry.lhs, MemberEntry.rhs])]
  have hrhs : (Place.deref e.rhs).read st.memory = some (e.inner.type, b) := by
    rw [hst, Place.read_deref_head]
  rw [Schema.equalMembers_member hm]
  exact hplaced.run_equalityCode hcounts (Place.under_deref _ _) (Place.under_deref _ _) hlhs hrhs
    ha hb

end Model.Defined

/-! ### Packages -/

/-- What is asked of an item beyond its being accepted: its parts have labels of their own, and types
with a conversion are stored as the conversion needs it where they are not cast. -/
structure Item.Sound (vocabulary : Vocabulary) (item : Item) : Prop where
  labels : ∀ m, item.model.result = .ok m → (m.parts.map fun p => p.label.text).Nodup
  stores : ∀ m, item.model.result = .ok m →
    ∀ p ∈ m.parts, p.field.StoresCarriers vocabulary p.field.modifiers.cast

namespace Package

variable {items : List Item} {p q : Package} {name : String} {slots : List Slot} {u : Members}

/-- The record is added for a model of one of the items. -/
def Adds (vocabulary : Vocabulary) (items : List Item) (name : String) (slots : List Slot) : Prop :=
  ∃ item ∈ items, ∃ m, item.model.result = .ok m ∧ m.name = name ∧
    allSome (m.parts.map (Part.slot? vocabulary)) = some slots

/-- A model adds the record that its parts are the slots of, or none. -/
theorem record_mem_add {m : Model} (hq : p.add? vocabulary m = some q)
    (hmem : (name, .record slots) ∈ q.schema.decls) :
    (name, .record slots) ∈ p.schema.decls ∨
      m.name = name ∧ allSome (m.parts.map (Part.slot? vocabulary)) = some slots := by
  unfold add? at hq
  split at hq
  · obtain ⟨u, -, rfl⟩ := Option.map_eq_some_iff.1 hq
    exact .inl hmem
  · obtain ⟨u, -, rfl⟩ := Option.map_eq_some_iff.1 hq
    rcases List.mem_append.1 hmem with hmem | hmem
    · exact .inl hmem
    · cases List.mem_singleton.1 hmem
  all_goals
    obtain ⟨slots', hslots, rfl⟩ := Option.map_eq_some_iff.1 hq
    rcases List.mem_append.1 hmem with hmem | hmem
    · exact .inl hmem
    · cases List.mem_singleton.1 hmem
      exact .inr ⟨rfl, hslots⟩

theorem record_mem_addItems (hq : p.addItems? vocabulary items = some q)
    (hmem : (name, .record slots) ∈ q.schema.decls) :
    (name, .record slots) ∈ p.schema.decls ∨ Adds vocabulary items name slots := by
  induction items generalizing p with
  | nil =>
    cases hq
    exact .inl hmem
  | cons item items ih =>
    rw [addItems?] at hq
    split at hq
    · cases hq
    · rename_i m hm
      split at hq
      · cases hq
      · rename_i p' hp'
        rcases ih hq with hmem | ⟨i, hi, hadd⟩
        · rcases record_mem_add hp' hmem with hmem | hadd
          · exact .inl hmem
          · exact .inr ⟨item, List.mem_cons_self, m, hm, hadd⟩
        · exact .inr ⟨i, List.mem_cons_of_mem _ hi, hadd⟩

/-- Each record of a package is declared by a model with its name, so that the code of the model
encodes, decodes and compares the values of the record. -/
theorem declared_of_find (hp : ofItems? vocabulary items = some p)
    (hsound : ∀ item ∈ items, item.Sound vocabulary)
    (hf : p.schema.find? name = some (.record slots)) :
    ∃ m : Model, m.name = name ∧ m.Declared vocabulary p.schema slots := by
  rcases record_mem_addItems hp (mem_of_lookup hf) with hmem | ⟨item, hi, m, hm, rfl, hslots⟩
  · cases hmem
  · obtain ⟨o, -, hmodel⟩ := Traced.bind_eq_ok.1 hm
    exact ⟨m, rfl, ⟨item, _, hmodel⟩, hslots, hf, (hsound item hi).labels m hm,
      (hsound item hi).stores m hm⟩

/-- The members of each holder of a package are those of a model in the role of a definition, so
that the code of its table encodes, decodes and compares what the holder holds. -/
theorem defined_of_find (hp : ofItems? vocabulary items = some p)
    (hsound : ∀ item ∈ items, item.Sound vocabulary)
    (hf : p.schema.find? name = some (.holder u)) : ∃ m : Model, m.Defined vocabulary u := by
  have hempty : AllMembers (fun u => ∃ m, Model.Defined vocabulary m u)
      { schema := { defaults := vocabulary.defaults } } := ⟨by simp, by simp⟩
  have hall := hempty.addItems
    (fun item hi m hm hrole u hu => ⟨m, ⟨item, hm⟩, hrole, hu, (hsound item hi).stores m hm⟩) hp
  exact hall.holders name u (mem_of_lookup hf)

end Package

end Marshal
