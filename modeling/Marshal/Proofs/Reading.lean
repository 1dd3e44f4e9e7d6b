import Marshal.Proofs.Nesting
import Marshal.Proofs.Placement
import Marshal.Proofs.Unfolding

/-!
# Running the code that decodes a field

`Placed.run_decodeCode`: run at a place with a receiver, the code that is emitted for a field uses
up as much input, fails in the same way and leaves the receiver in the same state as the decoder of
the shape of the field does (`Schema.decode`).  Nothing but the receiver and the offset changes.

The three kinds of decoders have their counterparts in code.

* What is replaced as a whole is read into a variable and stored at the end
  (`Code.run_fresh_store`).
* The items of an array are overwritten one after the other (`Code.run_forIndex_decode`).
* A sequence or a map is cleared once its length is known, and then each round of a loop adds what
  it has read (`Code.run_refill`).

Only the form of a receiver matters, not its contents (`Shape.Receives`).
-/

namespace Marshal

variable {vocabulary : Vocabulary} {Γ : Schema}

/-! ### Receivers -/

/-- A value that the code for a shape can overwrite: arrays with items that can be overwritten,
sequences and maps, and anything where the value is replaced as a whole or handed on. -/
def Shape.Receives : Shape → Value → Prop
  | array _ s, v => ∃ vs, v = .items vs ∧ ∀ u ∈ vs, s.Receives u
  | seq _, v => ∃ vs, v = .items vs
  | map _ _ _, v => ∃ es, v = .entries es
  | scalar _ _, _ | converted _ _, _ | delegate _, _ | ref _, _ | staged _, _ | option _, _ => True

theorem Shape.receives_blank (Γ : Schema) (s : Shape) : s.Receives (Γ.blank s) := by
  induction s with
  | array size s ih =>
    refine ⟨_, rfl, fun u hu => ?_⟩
    rw [List.eq_of_mem_replicate hu]
    exact ih
  | seq | map => exact ⟨_, rfl⟩
  | scalar | converted | delegate | ref | staged | option => trivial

theorem Schema.Fits.receives {s : Shape} {v : Value} (h : Γ.Fits s v) : s.Receives v := by
  induction h with
  | array _ _ ih => exact ⟨_, rfl, ih⟩
  | seq | map => exact ⟨_, rfl⟩
  | scalar | cast | converted | delegate | staged | absent | present | record | empty | held =>
    trivial

/-! ### Scopes and loops -/

namespace State

variable {st : State} {p : Place} {t : TypeExpr} {r : Value} {us : List Value} {names : Memory}

theorem enter_nil (st : State) : st.enter [] = st := rfl

@[simp]
theorem rest_bind (st : State) (x : Local) (b : Binding) : (st.bind x b).rest = st.rest := rfl

@[simp]
theorem rest_enter (st : State) (names : Memory) : (st.enter names).rest = st.rest := rfl

theorem rest_add (st : State) (m : Memory) (n : Nat) :
    State.rest { st with memory := m, offset := st.offset + n } = st.rest.drop n := by
  rw [rest, rest, List.drop_drop]

/-- To read and then to store is to decode what is replaced as a whole. -/
theorem take_store {α : Type} (ho : p.owned = true) (hr : p.read st.memory = some (t, r))
    (reader : Reader α) (g : α → Value) :
    (st.take reader fun a st => st.store p (g a)) =
      st.settle p (Decoder.ofReader (reader.map g) r st.rest) := by
  rw [take, settle, if_pos ho, Decoder.ofReader, Reader.map]
  cases reader st.rest with
  | error e => exact congrArg (Exit.fault e) (Place.put_self hr).symm
  | ok a => exact if_pos ho

theorem settle_error (ho : p.owned = true) (hr : p.read st.memory = some (t, r)) (e : Fault) :
    st.settle p ⟨.error e, r⟩ = .fault e st.memory := by
  rw [settle, if_pos ho, finish, Place.put_self hr]

theorem store_eq_settle (st : State) (p : Place) (v : Value) :
    st.store p v = st.settle p ⟨.ok 0, v⟩ := rfl

/-- What a decoder answers for a variable is stored in the variable. -/
theorem settle_head (st : State) (x : Local) (type : TypeExpr) (v : Value) (o : Outcome) :
    (st.enter ((.inner x, .value type v) :: names)).settle (.var x) o =
      st.finish o.result ((.inner x, .value type o.receiver) :: names ++ st.memory) := by
  simp only [settle, Place.owned, ↓reduceIte, enter, List.cons_append, Place.put_var_head]
  rfl

theorem settle_bind (st : State) (x : Local) (type : TypeExpr) (v : Value) (o : Outcome) :
    (st.bind x (.value type v)).settle (.var x) o =
      st.finish o.result ((.inner x, .value type o.receiver) :: st.memory) :=
  @settle_head [] st x type v o

theorem settle_next {x y : Local} (h : y ≠ x) (st : State) (b : Binding) (type : TypeExpr)
    (v : Value) (o : Outcome) :
    (st.enter ((.inner x, b) :: (.inner y, .value type v) :: names)).settle (.var y) o =
      st.finish o.result ((.inner x, b) :: (.inner y, .value type o.receiver) :: names ++
        st.memory) := by
  simp only [settle, Place.owned, ↓reduceIte, enter, List.cons_append, Place.put_var_next h]
  rfl

/-- To put a value in a place binds no names. -/
theorem leave_settle (st : State) (p : Place) (o : Outcome) :
    (st.settle p o).leave st.memory.length = st.settle p o := by
  have hleave (v : Value) : (p.put st.memory v).leave st.memory.length = p.put st.memory v :=
    Place.leave_append_put [] st.memory p v
  unfold settle
  split_ifs
  · rcases o with ⟨_ | n, w⟩ <;> simp only [finish, Exit.leave, hleave]
  · rfl

/-- A loop decodes items in place, if the round of each position decodes the item there. -/
theorem each_items {step : Nat → State → Exit} {d : Decoder} {m : Memory} (ws : List Value)
    {vs : List Value}
    (h : ∀ ws v vs st', v ∈ us → st'.memory = p.put m (.items (ws ++ v :: vs)) →
      step ws.length st' = st'.finish (d v st'.rest).result
        (p.put m (.items (ws ++ (d v st'.rest).receiver :: vs))))
    (hvs : vs ⊆ us) (hst : st.memory = p.put m (.items (ws ++ vs))) :
    each step (List.range' ws.length vs.length) st =
      st.finish (decodeSlots (vs.map fun _ => d) vs st.rest).1
        (p.put m (.items (ws ++ (decodeSlots (vs.map fun _ => d) vs st.rest).2))) := by
  induction vs generalizing ws st with
  | nil =>
    obtain ⟨memory, buffer, input, offset⟩ := st
    cases hst
    rfl
  | cons v vs ih =>
    have hv := h ws v vs st (hvs List.mem_cons_self) hst
    rw [List.length_cons, List.range'_succ, each, hv, List.map_cons, decodeSlots]
    rcases d v st.rest with ⟨e | n, w⟩
    · rfl
    · simp only [finish, Exit.andThen]
      have hnext := @ih
        { st with memory := p.put m (.items (ws ++ w :: vs)), offset := st.offset + n } (ws ++ [w])
        (fun u hu => hvs (List.mem_cons_of_mem _ hu)) (by simp)
      simp only [rest_add, List.length_append, List.length_cons, List.length_nil, Nat.zero_add,
        List.append_assoc, List.singleton_append] at hnext
      rw [hnext]
      rcases decodeSlots (vs.map fun _ => d) vs (st.rest.drop n) with ⟨e | k, vs'⟩
      · rfl
      · simp only [finish, Nat.add_assoc]

/-- A loop fills up what was cleared, if each round adds what it reads. -/
theorem each_collect {α : Type} {round : State → Exit} {reader : Reader α}
    {build : List α → Value} (base used : Nat) (got : Array α) (ho : p.owned = true)
    (hr : p.read st.memory = some (t, r))
    (h : ∀ (got : List α) (st' : State), p.read st'.memory = some (t, build got) →
      round st' = st'.settle p
        (Decoder.ofReader (reader.map fun a => build (got ++ [a])) (build got) st'.rest))
    (rounds : List Nat) :
    each (fun _ => round) rounds
        { st with memory := p.put st.memory (build got.toList), offset := base + used } =
      finish { st with offset := base }
        (reader.collect rounds.length (st.input.drop (base + used)) used got).1
        (p.put st.memory (build
          (reader.collect rounds.length (st.input.drop (base + used)) used got).2.toList)) := by
  induction rounds generalizing used got with
  | nil => rfl
  | cons j rounds ih =>
    rw [each, h got.toList _ (Place.read_put ho hr _), List.length_cons, Reader.collect]
    show Exit.andThen (State.settle _ p (Decoder.ofReader _ _ (st.input.drop (base + used)))) _ = _
    rw [Decoder.ofReader, Reader.map]
    rcases reader (st.input.drop (base + used)) with e | ⟨a, n⟩
    · simp only [settle, if_pos ho, finish, Exit.fault_andThen, Place.put_put ho hr]
    · have hnext := ih (used + n) (got.push a)
      rw [← Nat.add_assoc, ← List.drop_drop, Array.toList_push] at hnext
      simp only [settle, if_pos ho, Place.put_put ho hr]
      exact hnext

end State

namespace Code

variable {t : TypeExpr} {p : Place} {st : State} {r : Value}

/-- A value that is read afresh into a variable and then stored in a place replaces what is there as
a whole. -/
theorem run_fresh_store {x : Local} {type : TypeExpr} {e : Fresh} {code last : Code} {d : Decoder}
    {blank : Value} {g : Value → Value} (hp : p.Under x.depth) (ho : p.owned = true)
    (hr : p.read st.memory = some (t, r)) (hfresh : e.value? vocabulary Γ type = some blank)
    (hcode : ∀ st' : State, (Place.var x).read st'.memory = some (type, blank) →
      code.run vocabulary Γ st' = st'.settle (.var x) (d blank st'.rest))
    (hlast : ∀ (st' : State) w, p.read st'.memory = some (t, r) → st'.memory.value? x = some w →
      last.run vocabulary Γ st' = st'.store p (g w)) :
    st.within [] ((Code.ofList [.bindFresh x type e, code, last]).run vocabulary Γ) =
      st.settle p (Decoder.ofReader ((d.fresh blank).map g) r st.rest) := by
  have hbound := hcode (st.bind x (.value type blank)) (Place.read_var_head _ _ _ _)
  rw [State.settle_bind, State.rest_bind] at hbound
  simp only [State.within, Code.ofList, Code.run, State.enter, List.nil_append, hfresh,
    Exit.done_andThen]
  rw [hbound, Decoder.ofReader, Reader.map, Decoder.fresh]
  rcases d blank st.rest with ⟨e | k, w⟩
  · rw [State.settle_error ho hr]
    exact congrArg (Exit.fault e) (Memory.leave_cons _ _)
  · have hstored := hlast { st with
      memory := (.inner x, .value type w) :: st.memory, offset := st.offset + k } w
      ((Place.read_cons hp le_rfl _ _).trans hr) (Place.value?_head _ _ _ _)
    simp only [State.finish, Exit.done_andThen]
    rw [hstored, State.store, if_pos ho, Place.put_cons hp le_rfl, State.settle, if_pos ho]
    simp only [Exit.leave, Place.leave_cons_put, State.finish]

/-- An entry that is read afresh into two variables is put into a map. -/
theorem run_fresh_insert {x y : Local} {type type' tk : TypeExpr} {e e' : Fresh}
    {code code' : Code} {d d' : Decoder} {blank blank' : Value} {es : Entries} (hxy : x ≠ y)
    (hx : p.Under x.depth) (hy : p.Under y.depth) (ho : p.owned = true)
    (hr : p.read st.memory = some (t, .entries es)) (htk : t.part? 0 = some tk)
    (hfresh : e.value? vocabulary Γ type = some blank)
    (hfresh' : e'.value? vocabulary Γ type' = some blank')
    (hcode : ∀ st' : State, (Place.var x).read st'.memory = some (type, blank) →
      code.run vocabulary Γ st' = st'.settle (.var x) (d blank st'.rest))
    (hcode' : ∀ st' : State, (Place.var y).read st'.memory = some (type', blank') →
      code'.run vocabulary Γ st' = st'.settle (.var y) (d' blank' st'.rest)) :
    st.within [] ((Code.ofList [.bindFresh x type e, .bindFresh y type' e', code, code',
        .insert p x y]).run vocabulary Γ) =
      st.settle p (Decoder.ofReader ((Reader.entry (d.fresh blank) (d'.fresh blank')).map fun e =>
        .entries (Entries.insert (vocabulary.compareKeys tk) e.1 e.2 es)) (.entries es)
          st.rest) := by
  have hkey : code.run vocabulary Γ
      (st.enter [(.inner y, .value type' blank'), (.inner x, .value type blank)]) =
      st.finish (d blank st.rest).result ((.inner y, .value type' blank') ::
        (.inner x, .value type (d blank st.rest).receiver) :: st.memory) :=
    (hcode _ (Place.read_var_next hxy _ _ _ _)).trans (State.settle_next hxy _ _ _ _ _)
  have hvalue (k : Nat) (w : Value) : code'.run vocabulary Γ
      ({ st with offset := st.offset + k }.enter
        [(.inner y, .value type' blank'), (.inner x, .value type w)]) =
      { st with offset := st.offset + k }.finish (d' blank' (st.rest.drop k)).result
        ((.inner y, .value type' (d' blank' (st.rest.drop k)).receiver) ::
          (.inner x, .value type w) :: st.memory) := by
    rw [← State.rest_add st st.memory k]
    exact (hcode' _ (Place.read_var_head _ _ _ _)).trans (State.settle_head _ _ _ _ _)
  simp only [State.within, Code.ofList, State.enter_nil]
  rw [Code.run, Code.run, hfresh, Exit.done_andThen, Code.run, Code.run, hfresh',
    Exit.done_andThen, Code.run]
  refine (congrArg (fun o => (Exit.andThen o _).leave _) hkey).trans ?_
  simp only [Decoder.ofReader, Reader.map, Reader.entry, Reader.andThen, Decoder.fresh]
  rcases d blank st.rest with ⟨e | k, w⟩
  · rw [State.settle_error ho hr]
    exact congrArg (Exit.fault e) (Memory.leave_append [_, _] _)
  · simp only [State.finish, Exit.done_andThen]
    rw [Code.run]
    refine (congrArg (fun o => (Exit.andThen o _).leave _) (hvalue k w)).trans ?_
    rcases d' blank' (st.rest.drop k) with ⟨e | k', w'⟩
    · simp only [State.settle_error ho hr]
      exact congrArg (Exit.fault e) (Memory.leave_append [_, _] _)
    · have hp := (Place.read_cons hy le_rfl (.value type' w') _).trans
        ((Place.read_cons hx le_rfl (.value type w) st.memory).trans hr)
      simp only [State.finish, Exit.done_andThen, Code.run, hp, htk, Place.value?_head,
        Place.value?_next hxy, State.store, ho, ↓reduceIte, Exit.leave, Place.put_cons hx le_rfl,
        Place.put_cons hy le_rfl, State.settle, Nat.add_assoc]
      exact congrArg (fun m => Exit.done { st with memory := m, offset := st.offset + (k + k') })
        (Place.leave_append_put [_, _] _ _ _)

/-- An optional value is replaced as a whole, if its content is read afresh and then stored. -/
theorem run_casePresence {there : Code} {content : Reader Value} (ho : p.owned = true)
    (hr : p.read st.memory = some (t, r))
    (h : ∀ st' : State, p.read st'.memory = some (t, r) →
      st'.within [] (there.run vocabulary Γ) =
        st'.settle p (Decoder.ofReader (content.map .present) r st'.rest)) :
    (Code.block (.casePresence (.storeAbsent p) there)).run vocabulary Γ st =
      st.settle p (Decoder.ofReader (readOption content) r st.rest) := by
  rw [Code.run, State.within, State.enter_nil, Code.run, State.take, readOption, Decoder.ofReader,
    Reader.andThen]
  rcases Reader.byte st.rest with e | ⟨presence, k⟩
  · rw [State.settle_error ho hr]
    exact congrArg (Exit.fault e) (Memory.leave_append [] st.memory)
  · have hleave := State.leave_settle { st with offset := st.offset + k } p
    by_cases hz : presence = 0
    · simp only [hz, ↓reduceIte, Reader.pure]
      rw [State.within, State.enter_nil, Code.run, State.store_eq_settle, hleave, hleave,
        State.settle, State.settle, if_pos ho, if_pos ho]
      rfl
    · simp only [hz, ↓reduceIte]
      rw [h { st with offset := st.offset + k } hr, hleave, State.settle, State.settle, if_pos ho,
        if_pos ho, State.rest_add st st.memory k, Decoder.ofReader]
      rcases content.map Value.present (st.rest.drop k) with e | ⟨v, k'⟩
      · rfl
      · simp only [State.finish, Nat.add_assoc]

theorem run_lengthCheck {x : Local} {checked : Bool} {count : Nat}
    (h : st.memory.number? x = some count) :
    (lengthCheck x checked).run vocabulary Γ st =
      if checked ∧ !atLeast count st.rest then .fault .truncated st.memory else .done st := by
  cases checked with
  | false => simp [lengthCheck, Code.run]
  | true => cases hc : atLeast count st.rest <;> simp [lengthCheck, Code.run, h, hc]

/-- Items are counted, what is there is removed, and then there is a round for each item. -/
theorem run_refill {α : Type} {x : Local} {checked : Bool} {reader : Reader α}
    {build : List α → Value} {body : Code} (hp : p.Under x.depth) (ho : p.owned = true)
    (hr : p.read st.memory = some (t, r))
    (hclear : ∀ st' : State, p.read st'.memory = some (t, r) →
      (Code.clear p).run vocabulary Γ st' = st'.store p (build []))
    (hround : ∀ (got : List α) (st' : State), p.read st'.memory = some (t, build got) →
      st'.within [] (body.run vocabulary Γ) = st'.settle p
        (Decoder.ofReader (reader.map fun a => build (got ++ [a])) (build got) st'.rest)) :
    (Code.block (.ofList [.readLength x, lengthCheck x checked, .clear p, .times x body])).run
        vocabulary Γ st =
      st.settle p (Decoder.refill checked reader build r st.rest) := by
  unfold Decoder.refill
  simp only [Code.ofList]
  rw [Code.run, State.within, State.enter_nil, Code.run, Code.run, State.take]
  rcases Varint.read st.rest with e | ⟨count, k⟩
  · rw [State.settle_error ho hr]
    exact congrArg (Exit.fault e) (Memory.leave_append [] st.memory)
  · generalize hst : ({ st with offset := st.offset + k }.bind x (.number count.toNat)) = st'
    have hcount : st'.memory.number? x = some count.toNat := by
      simp [← hst, State.bind, Memory.number?, Binding.number?]
    have hr' : p.read st'.memory = some (t, r) :=
      hst ▸ (Place.read_cons hp le_rfl _ _).trans hr
    have hrest : st'.rest = st.rest.drop k := hst ▸ st.rest_add st.memory k
    simp only [Exit.done_andThen, hst]
    rw [Code.run, run_lengthCheck hcount, hrest]
    split_ifs with hc
    · rw [State.settle_error ho hr, ← hst]
      exact congrArg _ (Memory.leave_cons _ _)
    · rw [Exit.done_andThen, Code.run, hclear _ hr', State.store, if_pos ho, Exit.done_andThen,
        Code.run, Place.number?_put, hcount]
      have hloop := State.each_collect st.offset k #[] ho hr' hround (List.range count.toNat)
      subst hst
      refine (congrArg (Exit.leave st.memory.length) hloop).trans ?_
      have hdrop : ({ st with offset := st.offset + k }.bind x
          (.number count.toNat)).input.drop (st.offset + k) = st.rest.drop k := hrest
      rw [hdrop, List.length_range, State.settle, if_pos ho]
      rcases reader.collect count.toNat (st.rest.drop k) k #[] with ⟨e | n, got⟩ <;>
        simp only [State.finish, Exit.leave, State.bind, Place.put_cons hp le_rfl,
          Place.leave_cons_put]

/-- A loop over the items of a place decodes them in place, if its body decodes each. -/
theorem run_forIndex_decode {u : TypeExpr} {i : Local} {body : Code} {vs : List Value}
    {d : Decoder} (hp : p.Under i.depth) (ho : p.owned = true)
    (hr : p.read st.memory = some (t, .items vs)) (hu : t.part? 0 = some u)
    (h : ∀ v ∈ vs, ∀ st' : State, (Place.item p i).read st'.memory = some (u, v) →
      body.run vocabulary Γ st' = st'.settle (.item p i) (d v st'.rest)) :
    (Code.forIndex i p body).run vocabulary Γ st =
      st.settle p (Decoder.inPlace Value.items? .items (fun vs => vs.map fun _ => d) (.items vs)
        st.rest) := by
  have hround (ws : List Value) (v : Value) (vs' : List Value) (st' : State) (hv : v ∈ vs)
      (hst : st'.memory = p.put st.memory (.items (ws ++ v :: vs'))) :
      st'.within [(.inner i, .number ws.length)] (body.run vocabulary Γ) =
        st'.finish (d v st'.rest).result
          (p.put st.memory (.items (ws ++ (d v st'.rest).receiver :: vs'))) := by
    have hp' : p.read st'.memory = some (t, .items (ws ++ v :: vs')) :=
      hst ▸ Place.read_put ho hr _
    have hbody := h v hv (st'.enter [(.inner i, .number ws.length)])
      (Place.read_item_head hp le_rfl hp' hu (by simp))
    have hput (w : Value) :
        (Place.item p i).put ((.inner i, .number ws.length) :: st'.memory) w =
          (.inner i, .number ws.length) :: p.put st.memory (.items (ws ++ w :: vs')) := by
      rw [Place.put_item ((Place.read_cons hp le_rfl _ _).trans hp') (Place.number?_head _ _ _),
        Place.put_cons hp le_rfl, hst, Place.put_put ho hr, List.set_append_right _ _ le_rfl,
        Nat.sub_self, List.set_cons_zero]
    have hlength : st'.memory.length = st.memory.length := by rw [hst, Place.length_put]
    rw [State.within, hbody, hlength, State.rest_enter]
    rcases d v st'.rest with ⟨e | k, w⟩ <;>
      simp only [State.settle, Place.owned, ho, ↓reduceIte, State.finish, State.enter,
        List.cons_append, List.nil_append, hput, Exit.leave, Place.leave_cons_put]
  simp only [Code.run, hr, State.settle, ho, ↓reduceIte, List.range_eq_range']
  exact State.each_items [] hround (List.Subset.refl vs) (Place.put_self hr).symm

end Code

namespace Placed

variable {t : TypeExpr} {f : Field} {s : Shape} {p : Place} {n : Nat} {st : State} {r : Value}

/-- The code that decodes a field does what the shape of the field says. -/
theorem run_decodeCode (h : Placed vocabulary t f s) (hn : f.CountsFrom n) (hp : p.Under n)
    (ho : p.owned = true) (hr : p.read st.memory = some (t, r)) (hv : s.Receives r) :
    (f.decodeCode p).run vocabulary Γ st = st.settle p (Γ.decode .expanded s r st.rest) := by
  -- by induction on the tree, since what is read afresh is in a variable of the field's own type
  induction f generalizing t s n p st r with
  | leaf info type wire =>
    cases h with
    | @scalar _ _ _ w htype ht hw _ =>
      have htype' : type.scalar? = t.scalar? := by rw [TypeExpr.scalar?, htype, TypeExpr.scalar?]
      cases hc : info.modifiers.cast with
      | none =>
        simp only [Field.decodeCode, Field.encodedWire, hc, Option.none_or, incoming, Code.run, hr,
          Incoming.stored?, ht, ↓reduceIte, State.take_store ho hr]
        show _ = st.settle p (Decoder.ofReader (w.scalar.read none) r st.rest)
        rw [Scalar.read, hw]
        rfl
      | some w' =>
        simp only [Field.decodeCode, Field.encodedWire, hc, Option.some_or, incoming, Code.run, hr,
          Incoming.stored?, htype', ht, ↓reduceIte, Option.map_some, State.take_store ho hr]
        rfl
    | nested _ hc hs _ =>
      simp only [Field.decodeCode, Field.encodedWire, hc, Option.none_or, Code.run, Place.shaped?,
        hr, hs, Option.map_some]
      rfl
    | converted _ hc _ hconv =>
      simp only [Field.decodeCode, Field.encodedWire, hc, Option.some_or, incoming, Code.run, hr,
        Incoming.stored?, hconv, Option.map_some, State.take_store ho hr]
      rfl
  | array info type d f ih =>
    obtain ⟨rfl, hn⟩ := hn
    cases h with
    | array _ _ hu h =>
      obtain ⟨vs, rfl, hvs⟩ := hv
      rw [Field.decodeCode, Schema.decode_array]
      exact Code.run_forIndex_decode hp ho hr hu fun v hv st' hr' =>
        ih h hn (hp.item .i) ho hr' (hvs v hv)
  | sequence info type d f ih =>
    obtain ⟨rfl, hn⟩ := hn
    cases h with
    | @sequence _ _ _ _ _ _ s _ _ _ hu h =>
      obtain ⟨vs, rfl⟩ := hv
      cases hb : f.isRawByte with
      | true =>
        have hb' := h.isRawByte.trans hb
        simp only [Field.decodeCode, hb, ↓reduceIte, Code.run, hr, State.take_store ho hr]
        simp [Schema.decode, Shape.decode, hb']
      | false =>
        rw [Field.decodeCode, hb, if_neg Bool.false_ne_true, Schema.decode_seq, h.takesBytes]
        refine Code.run_refill hp ho hr (fun st' hr' => by simp [Code.run, hr'])
          fun got st' hr' => ?_
        exact Code.run_fresh_store hp ho hr' (h.at_type.fresh_value Γ)
          (fun st'' hx => ih h.at_type hn (Place.under_var _ _) rfl hx (s.receives_blank Γ))
          fun st'' w hp' hx => by simp [Code.run, hp', hx]
  | map info type d fk fv ihk ihv =>
    obtain ⟨rfl, hnk, hnv⟩ := hn
    cases h with
    | @map _ tk tv _ _ _ _ _ keys _ key _ value _ _ _ htk htv hkeys hk hv' =>
      obtain ⟨es, rfl⟩ := hv
      rw [Field.decodeCode, Schema.decode_map, hk.takesBytes, hv'.takesBytes]
      refine Code.run_refill hp ho hr (fun st' hr' => by simp [Code.run, hr', Entries.ofList])
        fun got st' hr' => ?_
      have hsnoc (a : Value × Value) : Entries.ofList (got ++ [a]) keys.compare =
          Entries.insert (vocabulary.compareKeys tk) a.1 a.2 (Entries.ofList got keys.compare) := by
        rw [← hkeys, Entries.ofList, List.foldl_append]
        rfl
      simp only [hsnoc]
      exact Code.run_fresh_insert (by simp) hp hp ho hr' htk (hk.at_type.fresh_value Γ)
        (hv'.at_type.fresh_value Γ)
        (fun st'' hx => ihk hk.at_type hnk (Place.under_var _ _) rfl hx (key.receives_blank Γ))
        (fun st'' hx => ihv hv'.at_type hnv (Place.under_var _ _) rfl hx (value.receives_blank Γ))
  | optional info type d f ih =>
    obtain ⟨rfl, hn⟩ := hn
    cases h with
    | @optional _ _ _ _ _ _ s _ _ _ hu h =>
      rw [Field.decodeCode, Schema.decode_option]
      refine Code.run_casePresence ho hr fun st' hr' => ?_
      exact Code.run_fresh_store hp ho hr' (h.at_type.fresh_value Γ)
        (fun st'' hx => ih h.at_type hn (Place.under_var _ _) rfl hx (s.receives_blank Γ))
        fun st'' w _ hx => by simp [Code.run, hx]
  | synonym | member => cases h

end Placed

end Marshal
