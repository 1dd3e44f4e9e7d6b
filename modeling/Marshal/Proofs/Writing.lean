import Marshal.Code.Writing
import Marshal.Proofs.Encoding
import Marshal.Proofs.Nesting
import Marshal.Proofs.Placement

/-!
# Running the code that encodes a field

`Placed.run_encodeCode`: run at a place with a value, the code that is emitted for a field appends
the bytes that the shape of the field has for the value (`Schema.encode`), and does nothing else.
The loops over items and entries append what their bodies append (`State.each_append`).
-/

namespace Marshal

variable {vocabulary : Vocabulary} {Γ : Schema}

namespace State

variable {st : State} {names : Memory} {body : State → Exit}

theorem append_nil (st : State) : st.append [] = st := by
  simp [append]

theorem append_append (st : State) (bs cs : List UInt8) :
    (st.append bs).append cs = st.append (bs ++ cs) := by
  simp [append]

/-- A scope in which bytes are written leaves these bytes behind and nothing else. -/
theorem within_append {bs : List UInt8}
    (h : body (st.enter names) = .done ((st.enter names).append bs)) :
    st.within names body = .done (st.append bs) := by
  rw [within, h]
  simp only [Exit.leave, append, enter, Memory.leave_append]

/-- A loop writes one thing after the other, if each round does. -/
theorem each_append {α : Type} {step : α → State → Exit} {g : α → List UInt8} {as : List α}
    (h : ∀ a ∈ as, ∀ st', st'.memory = st.memory → step a st' = .done (st'.append (g a))) :
    each step as st = .done (st.append (as.flatMap g)) := by
  induction as generalizing st with
  | nil => simp [each, append_nil]
  | cons a as ih =>
    have htail : each step as (st.append (g a)) =
        .done ((st.append (g a)).append (as.flatMap g)) :=
      ih fun b hb => h b (List.mem_cons_of_mem _ hb)
    rw [each, h a List.mem_cons_self st rfl, Exit.andThen, htail, append_append, List.flatMap_cons]

theorem each_map {α β : Type} (f : α → β) (step : β → State → Exit) (as : List α) (st : State) :
    each step (as.map f) st = each (fun a => step (f a)) as st := by
  induction as generalizing st with
  | nil => rfl
  | cons a as ih =>
    rw [List.map_cons, each, each]
    exact congrArg _ (funext ih)

/-- A loop over the positions of a list goes through its items. -/
theorem each_range_append {step : Nat → State → Exit} {g : Value → List UInt8} {vs : List Value}
    (h : ∀ i v, vs[i]? = some v → ∀ st', st'.memory = st.memory →
      step i st' = .done (st'.append (g v))) :
    each step (List.range vs.length) st = .done (st.append (vs.flatMap g)) := by
  have hitems : vs.zipIdx.flatMap (fun e => g e.1) = vs.flatMap g := by
    rw [← List.flatMap_map, List.zipIdx_map_fst]
  rw [List.range_eq_range', ← List.zipIdx_map_snd, each_map, ← hitems]
  refine each_append fun e he st' hst' => ?_
  exact h e.2 e.1 (List.mem_zipIdx_iff_getElem?.1 he) st' hst'

end State

namespace Code

variable {t : TypeExpr} {p : Place} {st : State} {v : Value}

theorem run_seq_append {first second : Code} {bs cs : List UInt8}
    (h : first.run vocabulary Γ st = .done (st.append bs))
    (h' : second.run vocabulary Γ (st.append bs) = .done ((st.append bs).append cs)) :
    (Code.seq first second).run vocabulary Γ st = .done (st.append (bs ++ cs)) := by
  rw [Code.run, h, Exit.andThen, h', State.append_append]

/-- A loop over the items of a place writes one after the other, if its body writes each. -/
theorem run_forIndex_append {u : TypeExpr} {i : Local} {body : Code} {vs : List Value}
    {g : Value → List UInt8} (hp : p.Under i.depth) (hr : p.read st.memory = some (t, .items vs))
    (hu : t.part? 0 = some u)
    (h : ∀ v ∈ vs, ∀ st' : State, (Place.item p i).read st'.memory = some (u, v) →
      body.run vocabulary Γ st' = .done (st'.append (g v))) :
    (Code.forIndex i p body).run vocabulary Γ st = .done (st.append (vs.flatMap g)) := by
  simp only [Code.run, hr]
  refine State.each_range_append fun j v hj st' hst' => State.within_append (h v ?_ _ ?_)
  · exact List.mem_of_getElem? hj
  · exact Place.read_item_head hp le_rfl (hst' ▸ hr) hu hj

/-- A loop over the entries of a place writes one after the other, if its body writes each. -/
theorem run_forEntries_append {tk tv : TypeExpr} {k l : Local} {body : Code} {es : Entries}
    {g : Value × Value → List UInt8} (hne : k ≠ l)
    (hr : p.read st.memory = some (t, .entries es)) (htk : t.part? 0 = some tk)
    (htv : t.part? 1 = some tv)
    (h : ∀ e ∈ es, ∀ st' : State, (Place.deref k).read st'.memory = some (tk, e.1) →
      (Place.deref l).read st'.memory = some (tv, e.2) →
      body.run vocabulary Γ st' = .done (st'.append (g e))) :
    (Code.forEntries k l p body).run vocabulary Γ st = .done (st.append (es.flatMap g)) := by
  simp only [Code.run, hr, htk, htv]
  refine State.each_append fun e he st' _ => State.within_append (h e he _ ?_ ?_)
  · exact Place.read_deref_next hne _ _ _ _
  · exact Place.read_deref_head _ _ _ _

end Code

namespace Placed

variable {t : TypeExpr} {f : Field} {s : Shape} {p : Place} {n : Nat} {st : State} {v : Value}

/-- The code that encodes a field writes what the shape of the field says. -/
theorem run_encodeCode (h : Placed vocabulary t f s) (hn : f.CountsFrom n) (hp : p.Under n)
    (hr : p.read st.memory = some (t, v)) (hv : Γ.Fits s v) :
    (f.encodeCode p).run vocabulary Γ st = .done (st.append (Γ.encode .expanded s v)) := by
  induction h generalizing n p st v with
  | @scalar t info type w htype ht hw hs =>
    obtain ⟨d, rfl⟩ := hv.exists_datum
    have hd := Place.datum?_of_read hr
    cases hc : info.modifiers.cast with
    | none =>
      cases hb : w.byReference <;>
        simp [Field.encodeCode, Field.encodedWire, hc, outgoing, hb, Code.run, Outgoing.datum?, hd,
          ht, Schema.encode, Shape.encode, hw]
    | some w' =>
      simp [Field.encodeCode, Field.encodedWire, hc, outgoing, Code.run, Outgoing.datum?, hd, ht,
        Schema.encode, Shape.encode]
  | @nested t info type s htype hc hs _ =>
    simp only [Field.encodeCode, Field.encodedWire, hc, Option.none_or, Code.run, Place.shaped?,
      hr, hs, Option.map_some, Schema.encodeOnto_eq]
    rfl
  | @converted t info type c w htype hc ht hconv =>
    cases hv with
    | converted _ hd =>
      simp [Field.encodeCode, Field.encodedWire, hc, outgoing, Code.run, Outgoing.datum?,
        Place.datum?_of_read hr, hconv, Schema.encode, Shape.encode]
  | @array t u info type d f size s htype hsize hu h ih =>
    obtain ⟨rfl, hn⟩ := hn
    cases hv with
    | @array _ _ vs hl hvs =>
      rw [Field.encodeCode, Schema.encode_array]
      exact Code.run_forIndex_append hp hr hu fun v hv st' hr' => ih hn (hp.item .i) hr' (hvs v hv)
  | @sequence t u info type d f s s' htype hs hu h ih =>
    obtain ⟨rfl, hn⟩ := hn
    cases hv with
    | @seq _ vs hl hvs =>
      cases hb : f.isRawByte with
      | true =>
        have hb' := h.isRawByte.trans hb
        simp [Field.encodeCode, hb, Code.run, hr, Schema.encode, Shape.encode, hb']
      | false =>
        have hb' : ¬(Style.expanded = .expanded ∧ s.isRawByte) := by simp [h.isRawByte, hb]
        rw [Field.encodeCode, hb, if_neg Bool.false_ne_true, Schema.encode_seq hb']
        refine Code.run_seq_append (by simp [Code.run, Place.count?, hr]) ?_
        exact Code.run_forIndex_append hp hr hu fun v hv st' hr' =>
          ih hn (hp.item .i) hr' (hvs v hv)
  | @map t tk tv info type d fk fv keys keys' key key' value value' htype hs htk htv hkeys hk hv'
      ihk ihv =>
    obtain ⟨rfl, hnk, hnv⟩ := hn
    cases hv with
    | @map _ _ _ es hl hd hkey hvalue =>
      rw [Field.encodeCode, Schema.encode_map]
      refine Code.run_seq_append (by simp [Code.run, Place.count?, hr]) ?_
      refine Code.run_forEntries_append (by simp) hr htk htv fun e he st' hk' hv' => ?_
      refine Code.run_seq_append (ihk hnk (Place.under_deref _ _) hk' (hkey e he)) ?_
      exact ihv hnv (Place.under_deref _ _) hv' (hvalue e he)
  | @optional t u info type d f s s' htype hs hu h ih =>
    obtain ⟨rfl, hn⟩ := hn
    cases hv with
    | absent =>
      simp only [Field.encodeCode, Code.run, hr]
      exact State.within_append rfl
    | @present _ v hv =>
      simp only [Field.encodeCode, Code.run, hr, hu, Schema.encode_present, Exit.andThen]
      refine State.within_append ?_
      rw [ih hn (Place.under_deref _ _) (Place.read_deref_head _ _ _ _) hv, State.append_append]
      rfl

end Placed

end Marshal
