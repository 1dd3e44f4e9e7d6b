import Marshal.Code.Comparing
import Marshal.Proofs.Nesting
import Marshal.Proofs.Placement
import Marshal.Proofs.Same

/-!
# Running the code that compares a field

`Placed.run_equalityCode`: run at two places with values, the code that is emitted for a field goes
on as if nothing had been done if the shape of the field counts the values as equal
(`Schema.equals`), and otherwise it ends with the answer that they differ.
-/

namespace Marshal

variable {vocabulary : Vocabulary} {Γ : Schema}

namespace State

variable {st : State} {names : Memory} {body : State → Exit}

theorem require_andThen (st : State) (holds : Bool) (next : State → Exit) {holds' : Bool}
    (h : holds = true → next st = st.require holds') :
    (st.require holds).andThen next = st.require (holds && holds') := by
  cases holds with
  | true => exact h rfl
  | false => rfl

/-- A scope in which values are compared changes nothing. -/
theorem leave_require (st : State) (names : Memory) (holds : Bool) :
    ((st.enter names).require holds).leave st.memory.length = st.require holds := by
  cases holds with
  | true => simp only [require, ↓reduceIte, Exit.leave, enter, Memory.leave_append]
  | false => rfl

theorem within_require {holds : Bool}
    (h : body (st.enter names) = (st.enter names).require holds) :
    st.within names body = st.require holds := by
  rw [within, h, leave_require]

/-- A loop compares one thing after the other, if each round does. -/
theorem each_require {α : Type} {step : α → State → Exit} {g : α → Bool} {as : List α}
    (h : ∀ a ∈ as, step a st = st.require (g a)) :
    each step as st = st.require (as.all g) := by
  induction as with
  | nil => rfl
  | cons a as ih =>
    rw [each, h a List.mem_cons_self, List.all_cons]
    exact require_andThen st _ _ fun _ => ih fun b hb => h b (List.mem_cons_of_mem _ hb)

end State

namespace Code

variable {t : TypeExpr} {p q : Place} {st : State} {a b : Value}

theorem run_seq_require {first second : Code} {holds holds' : Bool}
    (h : first.run vocabulary Γ st = st.require holds)
    (h' : holds = true → second.run vocabulary Γ st = st.require holds') :
    (Code.seq first second).run vocabulary Γ st = st.require (holds && holds') := by
  rw [Code.run, h]
  exact State.require_andThen st _ _ h'

/-- Two sequences or arrays are compared position by position, if their items are compared. -/
theorem run_itemsEqualityCode {u : TypeExpr} {d : Nat} {code : Place → Place → Code}
    {as bs : List Value} {same : Value → Value → Bool} (hp : p.Under d) (hq : q.Under d)
    (hr : p.read st.memory = some (t, .items as)) (hr' : q.read st.memory = some (t, .items bs))
    (hu : t.part? 0 = some u)
    (h : ∀ a ∈ as, ∀ b ∈ bs, ∀ (p' q' : Place) (st' : State), p'.Under (d + 1) → q'.Under (d + 1) →
      p'.read st'.memory = some (u, a) → q'.read st'.memory = some (u, b) →
      (code p' q').run vocabulary Γ st' = st'.require (same a b)) :
    (itemsEqualityCode d p q code).run vocabulary Γ st =
      st.require (sameAtPositions same as bs) := by
  refine run_seq_require (by simp [Code.run, Place.count?, hr, hr']) fun hl => ?_
  have hl : as.length = bs.length := by simpa using hl
  simp only [Code.run, hr]
  refine State.each_require fun j hj => ?_
  have hj : j < as.length := List.mem_range.1 hj
  have ha : as[j]? = some as[j] := List.getElem?_eq_getElem hj
  have hb : bs[j]? = some bs[j] := List.getElem?_eq_getElem (hl ▸ hj)
  simp only [List.getElem?_toArray, ha, hb]
  refine State.within_require (h _ (List.getElem_mem _) _ (List.getElem_mem _) _ _ _ (hp.item .i)
    (hq.item .i) ?_ ?_)
  · exact Place.read_item_head hp le_rfl hr hu ha
  · exact Place.read_item_head hq le_rfl hr' hu hb

/-- The value of a key is looked up, and the code after it sees the value. -/
theorem run_bindEntry_seq {tk tv : TypeExpr} {x k : Local} {code : Code} {fs : Entries}
    {names : Memory} (hq : q.read (names ++ st.memory) = some (t, .entries fs))
    (hk : (Place.deref k).read (names ++ st.memory) = some (tk, a)) (htv : t.part? 1 = some tv) :
    (Code.seq (.bindEntry x q k) code).run vocabulary Γ (st.enter names) =
      match Entries.find? (vocabulary.compareKeys tk) a fs with
      | some b => code.run vocabulary Γ (st.enter ((.inner x, .reference tv b) :: names))
      | none => .unequal := by
  simp only [Code.run, State.enter, hq, hk, htv]
  cases Entries.find? (vocabulary.compareKeys tk) a fs <;> rfl

/-- The entries of two maps are compared key by key, if their values are compared. -/
theorem run_forEntries_require {tk tv : TypeExpr} {d : Nat} {code : Code} {es fs : Entries}
    {keys : Keys} {same : Value → Value → Bool} (hq : q.Under d)
    (hr : p.read st.memory = some (t, .entries es))
    (hr' : q.read st.memory = some (t, .entries fs)) (htk : t.part? 0 = some tk)
    (htv : t.part? 1 = some tv) (hkeys : keys.compare = vocabulary.compareKeys tk)
    (h : ∀ e ∈ es, ∀ b, Entries.find? keys.compare e.1 fs = some b → ∀ st' : State,
      (Place.deref ⟨.lhs, d⟩).read st'.memory = some (tv, e.2) →
      (Place.deref ⟨.rhs, d⟩).read st'.memory = some (tv, b) →
      code.run vocabulary Γ st' = st'.require (same e.2 b)) :
    (Code.forEntries ⟨.k, d⟩ ⟨.lhs, d⟩ p (.seq (.bindEntry ⟨.rhs, d⟩ q ⟨.k, d⟩) code)).run
        vocabulary Γ st =
      st.require (es.all fun e => (Entries.find? keys.compare e.1 fs).any fun b => same e.2 b) := by
  rw [Code.run, hr]
  simp only [htk, htv]
  refine State.each_require fun e he => ?_
  have hq' (b c : Binding) :
      q.read ([(.inner ⟨.lhs, d⟩, b), (.inner ⟨.k, d⟩, c)] ++ st.memory) = some (t, .entries fs) :=
    (Place.read_cons hq (le_refl d) _ _).trans ((Place.read_cons hq (le_refl d) _ _).trans hr')
  have hk (b : Binding) : (Place.deref ⟨.k, d⟩).read
      ([(.inner ⟨.lhs, d⟩, b), (.inner ⟨.k, d⟩, .reference tk e.1)] ++ st.memory) =
        some (tk, e.1) :=
    Place.read_deref_next (by simp) _ _ _ _
  cases hb : Entries.find? keys.compare e.1 fs with
  | none =>
    rw [State.within, run_bindEntry_seq (hq' _ _) (hk _) htv, ← hkeys, hb]
    rfl
  | some b =>
    rw [State.within, run_bindEntry_seq (hq' _ _) (hk _) htv, ← hkeys, hb]
    simp only [Option.any_some]
    rw [h e he b hb _ (Place.read_deref_next (by simp) _ _ _ _) (Place.read_deref_head _ _ _ _),
      State.leave_require]

end Code

namespace Placed

variable {t : TypeExpr} {f : Field} {s : Shape} {p q : Place} {n : Nat} {st : State} {a b : Value}

/-- The code that compares a field decides what the shape of the field says. -/
theorem run_equalityCode (h : Placed vocabulary t f s) (hn : f.CountsFrom n) (hp : p.Under n)
    (hq : q.Under n) (hr : p.read st.memory = some (t, a)) (hr' : q.read st.memory = some (t, b))
    (ha : Γ.Fits s a) (hb : Γ.Fits s b) :
    (f.equalityCode p q).run vocabulary Γ st = st.require (Γ.equals .expanded s a b) := by
  induction h generalizing n p q st a b with
  | @scalar t info type w htype ht hw hs =>
    obtain ⟨d, rfl⟩ := ha.exists_datum
    obtain ⟨e, rfl⟩ := hb.exists_datum
    simp [Field.equalityCode, Field.encodedWire, Code.run, Place.datum?_of_read hr,
      Place.datum?_of_read hr', Vocabulary.same?, ht, Schema.equals, Shape.equals]
  | @nested t info type s htype hc hs _ =>
    simp only [Field.equalityCode, Field.encodedWire, hc, Option.none_or, Option.isSome_none,
      Bool.false_eq_true, ↓reduceIte, Code.run, Place.shaped?, hr, hs, Option.map_some, hr']
    rfl
  | @converted t info type c w htype hc ht hconv =>
    cases ha with
    | converted _ _ =>
      cases hb with
      | converted _ _ =>
        simp [Field.equalityCode, Field.encodedWire, hc, Code.run, Place.datum?_of_read hr,
          Place.datum?_of_read hr', Vocabulary.same?, ht, hconv, Schema.equals, Shape.equals]
  | @array t u info type d f size s htype hsize hu h ih =>
    obtain ⟨rfl, hn⟩ := hn
    cases ha with
    | @array _ _ as _ has =>
      cases hb with
      | @array _ _ bs _ hbs =>
        rw [Field.equalityCode, Schema.equals_array]
        exact Code.run_itemsEqualityCode hp hq hr hr' hu fun a ha b hb p' q' st' hp' hq' hrp hrq =>
          ih hn hp' hq' hrp hrq (has a ha) (hbs b hb)
  | @sequence t u info type d f s s' htype hs hu h ih =>
    obtain ⟨rfl, hn⟩ := hn
    cases ha with
    | @seq _ as _ has =>
      cases hb with
      | @seq _ bs _ hbs =>
        rw [Field.equalityCode, Schema.equals_seq]
        exact Code.run_itemsEqualityCode hp hq hr hr' hu fun a ha b hb p' q' st' hp' hq' hrp hrq =>
          ih hn hp' hq' hrp hrq (has a ha) (hbs b hb)
  | @map t tk tv info type d fk fv keys keys' key key' value value' htype hs htk htv hkeys hk hv'
      ihk ihv =>
    obtain ⟨rfl, -, hnv⟩ := hn
    cases ha with
    | @map _ _ _ es _ _ _ hes =>
      cases hb with
      | @map _ _ _ fs _ _ _ hfs =>
        rw [Field.equalityCode, Schema.equals_map]
        refine Code.run_seq_require (by simp [Code.run, Place.count?, hr, hr']) fun _ => ?_
        refine Code.run_forEntries_require hq hr hr' htk htv hkeys fun e he b hb st' hl hr' => ?_
        obtain ⟨k', -, hk'⟩ := Entries.exists_mem_of_find? hb
        exact ihv hnv (Place.under_deref _ _) (Place.under_deref _ _) hl hr' (hes e he)
          (hfs (k', b) hk')
  | @optional t u info type d f s s' htype hs hu h ih =>
    obtain ⟨rfl, hn⟩ := hn
    cases ha with
    | absent =>
      cases hb with
      | absent => simp only [Field.equalityCode, Code.run, hr, hr']; rfl
      | present hb => simp only [Field.equalityCode, Code.run, hr, hr']; rfl
    | present ha =>
      cases hb with
      | absent => simp only [Field.equalityCode, Code.run, hr, hr']; rfl
      | present hb =>
        simp only [Field.equalityCode, Code.run, hr, hr', hu, Schema.equals_present]
        refine State.within_require (ih hn (Place.under_deref _ _) (Place.under_deref _ _) ?_
          (Place.read_deref_head _ _ _ _) ha hb)
        exact Place.read_deref_next (by simp) _ _ _ _

end Placed

end Marshal
