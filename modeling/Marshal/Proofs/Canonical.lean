import Marshal.Proofs.Equality
import Marshal.Proofs.RoundTrip

/-!
# Canonical encodings

Bytes and equality can disagree about a value: a floating point number has patterns that are equal
and yet different, a NaN is written but differs from itself, a converted type has an equality of its
own, a hash map is visited in any order, and a slot may be left out of the bytes or of the
comparison.  `Shape.canonical` excludes these.  `Schema.Definite` asks of a value that each cast in
it can be undone, and that a map which is visited in the order of its keys is in that order.

The order of map keys may also look at a part of a key only.  `Schema.keysDistinguish` asks that
keys which compare equal are equal values; otherwise two maps that count as equal need not be
written alike (`Schema.equals_of_keys_confused`).

Then nothing is left open: values that count as equal are the same (`Schema.Same.eq`), and so are
values with the same bytes, as decoding gives back one value only
(`Schema.Definite.eq_of_encode_eq`).  Hence two values are equal if and only if their encodings are
(`Schema.equals_iff_encode_eq`).
-/

namespace Marshal

/-- Neither the bytes nor the equality of a value leave anything open at the top of the shape. -/
def Shape.canonical (Γ : Schema) : Shape → Prop
  | scalar s _ => ∀ f, s ≠ .float f
  | converted _ _ => False
  | map keys _ _ => keys.visit = .sorted
  | ref name => ∀ slots, Γ.find? name = some (.record slots) →
      ∀ slot ∈ slots, slot.offWire = false ∧ slot.uncompared = false
  | _ => True

theorem Scalar.eq_of_same {s : Scalar} {d e : Datum} (hs : ∀ f, s ≠ .float f)
    (h : s.same d e = true) : d = e := by
  cases s with
  | float f => exact absurd rfl (hs f)
  | int _ | bool | text => exact beq_iff_eq.1 h

theorem Scalar.isNaN_eq_false {s : Scalar} (hs : ∀ f, s ≠ .float f) (d : Datum) :
    s.isNaN d = false := by
  cases s with
  | float f => exact absurd rfl (hs f)
  | int _ | bool | text => rfl

/-! ### Maps in order -/

namespace Entries

theorem inOrder_of_pairwise {cmp : Value → Value → Ordering} {es : Entries}
    (h : es.Pairwise (Before cmp)) : inOrder cmp es = es := by
  refine (List.Pairwise.insertionSort_eq (h.imp fun hef => ?_))
  rw [Precedes, hef]
  rfl

end Entries

namespace Schema

/-! ### Values that nothing is lost of -/

/-- The value is one of the shape, every cast in it can be undone, and its maps that are visited in
the order of their keys are in that order. -/
structure Definite (Γ : Schema) (s : Shape) (v : Value) : Prop where
  fits : Γ.Fits s v
  lossless : ∀ ⦃t w d⦄, Γ.Within (s, v) (.scalar t (some w), .datum d) →
    w.scalar.convert t (t.convert w.scalar d) = d
  ordered : ∀ ⦃keys key value es⦄, Γ.Within (s, v) (.map keys key value, .entries es) →
    keys.visit = .sorted → es.Pairwise (Entries.Before keys.compare)

variable {Γ : Schema} {s s' : Shape} {a b v v' : Value}

theorem Definite.part (h : Γ.Definite s v) (hp : Γ.Part (s, v) (s', v')) : Γ.Definite s' v' where
  fits := h.fits.part hp
  lossless _ _ _ hw := h.lossless (hw.head hp)
  ordered _ _ _ _ hw := h.ordered (hw.head hp)

/-- A value is definite if it is so at its top and in its parts. -/
theorem Definite.of_parts (hfits : Γ.Fits s v)
    (hcast : ∀ t w d, (s, v) = (.scalar t (some w), .datum d) →
      w.scalar.convert t (t.convert w.scalar d) = d)
    (hordered : ∀ keys key value es, (s, v) = (.map keys key value, .entries es) →
      keys.visit = .sorted → es.Pairwise (Entries.Before keys.compare))
    (hparts : ∀ s' v', Γ.Part (s, v) (s', v') → Γ.Definite s' v') : Γ.Definite s v where
  fits := hfits
  lossless t w d h := by
    rcases h.cases_head with heq | ⟨⟨s', v'⟩, hp, hw⟩
    · exact hcast t w d heq
    · exact (hparts s' v' hp).lossless hw
  ordered keys key value es h := by
    rcases h.cases_head with heq | ⟨⟨s', v'⟩, hp, hw⟩
    · exact hordered keys key value es heq
    · exact (hparts s' v' hp).ordered hw

/-- Keys that compare equal are equal values.  An order may also look at a part of a key only. -/
def keysDistinguish (Γ : Schema) : Shape → Prop
  | .map keys key _ =>
    ∀ k l, Γ.Definite key k → Γ.Definite key l → keys.compare k l = .eq → k = l
  | _ => True

theorem whole_of_canonical (hs : Γ.Throughout (Shape.canonical Γ) s) : Γ.Whole s v := by
  intro name u slots hw hf slot hslot
  exact (hs _ hw.occurs slots hf slot hslot).1

theorem Definite.exact (h : Γ.Definite s v) (hs : Γ.Throughout (Shape.canonical Γ) s) :
    Γ.Exact s v where
  cast := h.lossless
  converted _ _ _ hw := (hs _ hw.occurs).elim
  keys _ _ _ _ hw _ _ := whole_of_canonical fun t ht => hs t ((hw.occurs.tail .key).trans ht)

/-! ### One value for each encoding -/

theorem eq_of_zip {α : Type} {as bs : List α} (hl : as.length = bs.length)
    (h : ∀ a b, (a, b) ∈ as.zip bs → b = a) : bs = as := by
  simpa using eq_map_of_zip (f := id) hl h

/-- A definite value lands as it is, whatever the receiver held. -/
theorem Lands.eq {r w : Value} (h : Γ.Lands s r v w) (hv : Γ.Definite s v)
    (hs : Γ.Throughout (Shape.canonical Γ) s) : w = v := by
  induction h with
  | scalar | converted | absent | empty _ => rfl
  | delegate _ ih => exact ih (hv.part .delegate) (hs.child .delegate)
  | staged _ ih => exact ih (hv.part .staged) (hs.child .staged)
  | present _ ih => rw [ih (hv.part .present) (hs.child .option)]
  | @array size s rs vs ws hr hw _ ih =>
    have hws : ws = (rs.zip vs).map Prod.snd := by
      refine eq_map_of_zip (by simp [hr, hw]) ?_
      rintro ⟨r, v⟩ w hm
      have hmem := (List.of_mem_zip (List.of_mem_zip hm).1).2
      exact ih r v w hm (hv.part (.array hmem)) (hs.child .array)
    rw [hws, List.map_snd_zip hr.ge]
  | @seq s r vs ws hw _ ih =>
    refine congrArg _ (eq_of_zip hw fun v w hm => ?_)
    exact ih v w hm (hv.part (.seq (List.of_mem_zip hm).1)) (hs.child .seq)
  | @map keys key value r es fs hw _ _ ihk ihv =>
    obtain rfl : fs = es := by
      refine eq_of_zip hw fun e f hm => ?_
      have he := (List.of_mem_zip hm).1
      exact Prod.ext (ihk e f hm (hv.part (.key he)) (hs.child .key))
        (ihv e f hm (hv.part (.value he)) (hs.child .value))
    rw [Entries.inOrder_of_pairwise (hv.ordered .refl hs.self)]
  | @record name slots rs vs ws hf hr hv' hw _ _ ih =>
    have hws : ws = (slots.zip (rs.zip vs)).map (Prod.snd ∘ Prod.snd) := by
      refine eq_map_of_zip (by simp; omega) ?_
      rintro ⟨slot, r, v⟩ w hm
      have hm' := (List.of_mem_zip hm).1
      have hslot := (List.of_mem_zip hm').1
      have hon := (hs.self slots hf slot hslot).1
      exact ih slot r v w hm hon (hv.part (.slot hf (mem_zip_snd (by omega) hm') hon))
        (hs.slot hf hslot)
    rw [hws, ← List.map_map, List.map_snd_zip (by simp; omega), List.map_snd_zip (by omega)]
  | held hf hm _ ih => rw [ih (hv.part (.held hf hm)) (hs.member hf hm)]

theorem Definite.eq_of_encode_eq {style : Style} (hΓ : Γ.DefaultsFit) (ha : Γ.Definite s a)
    (hb : Γ.Definite s b) (hs : Γ.Throughout (Shape.canonical Γ) s)
    (h : Γ.encode style s a = Γ.encode style s b) : a = b := by
  rw [ha.fits.encode_style, hb.fits.encode_style] at h
  -- both are decoded into the same receiver, which can be any value of the shape
  obtain ⟨w, haccept, hland⟩ := ha.fits.arrives hΓ ha.fits
  obtain ⟨w', haccept', hland'⟩ := hb.fits.arrives hΓ ha.fits
  have hdecode := haccept.decode ha.fits .generic []
  rw [h, haccept'.decode hb.fits .generic []] at hdecode
  cases hdecode
  exact ((hland (ha.exact hs)).eq ha hs).symm.trans ((hland' (hb.exact hs)).eq hb hs)

/-! ### One value for each class of equal values -/

theorem Same.eq (h : Γ.Same s a b) (ha : Γ.Definite s a) (hb : Γ.Definite s b)
    (hs : Γ.Throughout (Shape.canonical Γ) s) (hd : Γ.Throughout Γ.keysDistinguish s) : a = b := by
  induction h with
  | scalar h => rw [Scalar.eq_of_same hs.self h]
  | converted _ => exact hs.self.elim
  | delegate _ ih =>
    exact ih (ha.part .delegate) (hb.part .delegate) (hs.child .delegate) (hd.child .delegate)
  | staged _ ih =>
    exact ih (ha.part .staged) (hb.part .staged) (hs.child .staged) (hd.child .staged)
  | absent | empty _ => rfl
  | present _ ih =>
    rw [ih (ha.part .present) (hb.part .present) (hs.child .option) (hd.child .option)]
  | array hl _ ih =>
    refine congrArg _ (eq_of_zip hl fun x y hxy => Eq.symm ?_).symm
    obtain ⟨hx, hy⟩ := List.of_mem_zip hxy
    exact ih x y hxy (ha.part (.array hx)) (hb.part (.array hy)) (hs.child .array) (hd.child .array)
  | seq hl _ ih =>
    refine congrArg _ (eq_of_zip hl fun x y hxy => Eq.symm ?_).symm
    obtain ⟨hx, hy⟩ := List.of_mem_zip hxy
    exact ih x y hxy (ha.part (.seq hx)) (hb.part (.seq hy)) (hs.child .seq) (hd.child .seq)
  | @map keys key value es fs hl hk _ ih =>
    have hes := ha.ordered .refl hs.self
    have hfs := hb.ordered .refl hs.self
    -- the second map has each entry of the first one, and it has no more of them
    have hsub : es ⊆ fs := by
      intro e he
      obtain ⟨y, hy⟩ := Option.isSome_iff_exists.1 (hk e he)
      obtain ⟨l, hc, hmem⟩ := Entries.exists_mem_of_find? hy
      have hkey := hd.self e.1 l (ha.part (.key he)) (hb.part (.key hmem)) hc
      have hvalue := ih e he y hy (ha.part (.value he)) (hb.part (.value hmem)) (hs.child .value)
        (hd.child .value)
      rwa [← hkey, ← hvalue] at hmem
    have hperm := ((Entries.nodup_of_before hes).subperm hsub).perm_of_length_le hl.ge
    exact congrArg _ (Entries.eq_of_perm hes hfs hperm)
  | @record name slots as bs hf hla hlb _ ih =>
    have hl := ha.fits.length_slots hf
    refine congrArg _ (eq_of_zip (hl.symm.trans (hb.fits.length_slots hf))
      fun x y hxy => Eq.symm ?_).symm
    obtain ⟨i, hx, hy⟩ := mem_zip_iff.1 hxy
    obtain ⟨slot, hslot⟩ := exists_getElem?_of_length_le hl.ge hx
    have hmem := List.mem_of_getElem? hslot
    obtain ⟨hon, hc⟩ := hs.self slots hf slot hmem
    exact ih slot x y (mem_zip_zip_iff.2 ⟨i, hslot, hx, hy⟩) hc
      (ha.part (.slot hf (mem_zip_iff.2 ⟨i, hslot, hx⟩) hon))
      (hb.part (.slot hf (mem_zip_iff.2 ⟨i, hslot, hy⟩) hon)) (hs.slot hf hmem) (hd.slot hf hmem)
  | held hf hm _ ih =>
    rw [ih (ha.part (.held hf hm)) (hb.part (.held hf hm)) (hs.member hf hm)
      (hd.member hf hm)]

theorem Fits.comparable (h : Γ.Fits s v) (hs : Γ.Throughout (Shape.canonical Γ) s) :
    Γ.Comparable s v := by
  induction h with
  | scalar h | cast _ _ h => exact .scalar h
  | converted _ _ => exact hs.self.elim
  | delegate _ ih => exact .delegate (ih (hs.child .delegate))
  | staged _ ih => exact .staged (ih (hs.child .staged))
  | absent => exact .absent
  | present _ ih => exact .present (ih (hs.child .option))
  | array hl _ ih => exact .array hl fun v hv => ih v hv (hs.child .array)
  | seq _ _ ih => exact .seq fun v hv => ih v hv (hs.child .seq)
  | @map keys key value es _ hd _ _ _ ih =>
    exact .map (hd.imp Entries.Separate.apart) fun e he => ih e he (hs.child .value)
  | record hf hl _ ih =>
    refine .record hf hl fun p hp _ => ?_
    have hslot := (List.of_mem_zip hp).1
    exact ih p hp (hs.self _ hf p.1 hslot).1 (hs.slot hf hslot)
  | empty hf => exact .empty hf
  | held hf hm _ _ ih => exact .held hf hm (ih (hs.member hf hm))

/-- Without floating point numbers and conversions each value is equal to itself. -/
theorem selfEqual_of_canonical (hs : Γ.Throughout (Shape.canonical Γ) s) : Γ.SelfEqual s v where
  scalar _ _ d hw := Scalar.isNaN_eq_false (hs _ hw.occurs) d
  converted _ _ _ hw := (hs _ hw.occurs).elim

theorem Definite.same_iff_eq (ha : Γ.Definite s a) (hb : Γ.Definite s b)
    (hs : Γ.Throughout (Shape.canonical Γ) s) (hd : Γ.Throughout Γ.keysDistinguish s) :
    Γ.Same s a b ↔ a = b := by
  constructor
  · intro h
    exact h.eq ha hb hs hd
  · rintro rfl
    exact (selfEqual_of_canonical hs).same (ha.fits.comparable hs)

/-! ### Bytes and equality -/

theorem definite_singleton {keys : Keys} {key value : Shape} {k v : Value}
    (hk : Γ.Definite key k) (hv : Γ.Definite value v) :
    Γ.Definite (.map keys key value) (.entries [(k, v)]) := by
  refine .of_parts (.map (by simp) (List.pairwise_singleton _ _) ?_ ?_) (by simp) ?_ ?_
  · exact List.forall_mem_singleton.2 hk.fits
  · exact List.forall_mem_singleton.2 hv.fits
  · rintro keys key value es ⟨⟩ _
    exact List.pairwise_singleton _ _
  · intro s' v' hp
    cases hp with
    | key he => exact List.mem_singleton.1 he ▸ hk
    | value he => exact List.mem_singleton.1 he ▸ hv

/-- Two keys that compare equal and are different make two maps that count as equal, but are not
written alike. -/
theorem equals_of_keys_confused {keys : Keys} {key value : Shape} {k l v : Value}
    (hΓ : Γ.DefaultsFit) (hs : Γ.Throughout (Shape.canonical Γ) (.map keys key value))
    (hk : Γ.Definite key k) (hl : Γ.Definite key l) (hv : Γ.Definite value v)
    (hc : keys.compare k l = .eq) (hne : k ≠ l) (style style' : Style) :
    Γ.equals style (.map keys key value) (.entries [(k, v)]) (.entries [(l, v)]) = true ∧
      Γ.encode style' (.map keys key value) (.entries [(k, v)]) ≠
        Γ.encode style' (.map keys key value) (.entries [(l, v)]) := by
  constructor
  · have hvalue := hs.child .value
    have hself : Γ.Same value v v :=
      (selfEqual_of_canonical hvalue).same (hv.fits.comparable hvalue)
    refine equals_iff.2 (.map rfl ?_ ?_)
    · exact List.forall_mem_singleton.2 (by simp [Entries.find?, hc])
    · refine List.forall_mem_singleton.2 fun b hb => ?_
      obtain rfl : v = b := by simpa [Entries.find?, hc] using hb
      exact hself
  · intro h
    have heq := (definite_singleton hk hv).eq_of_encode_eq hΓ (definite_singleton hl hv) hs h
    simp [hne] at heq

/-- **Canonical encoding.**  Two values of a canonical type are equal if and only if their bytes
are, provided that map keys which compare equal are equal values.  A map that is visited in the
order of its keys is written alike however its entries were put into it, as long as it holds the
same ones in the end. -/
theorem equals_iff_encode_eq (hΓ : Γ.DefaultsFit) (hs : Γ.Throughout (Shape.canonical Γ) s)
    (hd : Γ.Throughout Γ.keysDistinguish s) (ha : Γ.Definite s a) (hb : Γ.Definite s b)
    (style style' : Style) :
    (Γ.equals style s a b = true ↔ Γ.encode style' s a = Γ.encode style' s b) ∧
      ∀ keys key value es fs, keys.visit = .sorted →
        (∀ e, e ∈ Entries.ofList es keys.compare ↔ e ∈ Entries.ofList fs keys.compare) →
        Γ.encode style' (.map keys key value) (.entries (Entries.ofList es keys.compare)) =
          Γ.encode style' (.map keys key value) (.entries (Entries.ofList fs keys.compare)) := by
  constructor
  · rw [equals_iff, ha.same_iff_eq hb hs hd]
    constructor
    · rintro rfl
      rfl
    · exact ha.eq_of_encode_eq hΓ hb hs
  · intro keys key value es fs _ h
    rw [Entries.eq_of_mem_iff (Entries.pairwise_ofList es) (Entries.pairwise_ofList fs) h]

/-- Keys in the opposite order. -/
def descending : KeyOrder := ⟨fun k l => l.compare k, inferInstance⟩

/-- Balances by name from the last to the first, which are written with 16 bits. -/
abbrev balancesShape : Shape :=
  .map ⟨descending, .sorted⟩ (.scalar .text none)
    (.scalar (.int ⟨true, .w32⟩) (some (.var ⟨true, .w16⟩)))

/-- Balances, and a ledger that continues this one. -/
def ledger : Schema :=
  { decls := [("Ledger", .record [
    ⟨.name "balances", balancesShape, false, false⟩,
    ⟨.name "next", .option (.delegate (.ref "Ledger")), false, false⟩])] }

/-- A balance and its name. -/
def balance (name : String) (i : Int) : Value × Value := (.datum (.text name), .datum (.int i))

/-- A page of balances, and what comes after it. -/
def page (balances : Entries) (next : Value) : Value := .record [.entries balances, next]

theorem canonical_ledger : ledger.Throughout (Shape.canonical ledger) (.ref "Ledger") := by
  have href : Shape.canonical ledger (.ref "Ledger") := by
    intro slots hf
    cases hf
    decide
  refine throughout_of_every ?_ href
  simp only [Every, ledger, List.forall_mem_cons, Decl.Every]
  refine ⟨⟨⟨rfl, fun f h => ?_, fun f h => ?_⟩, ⟨trivial, trivial, href⟩, List.forall_mem_nil _⟩,
    List.forall_mem_nil _⟩
  · cases h
  · cases h

theorem keysDistinguish_ledger :
    ledger.Throughout ledger.keysDistinguish (.ref "Ledger") := by
  refine throughout_of_every ?_ trivial
  simp only [Every, ledger, List.forall_mem_cons, Decl.Every]
  refine ⟨⟨⟨fun k l _ _ hc => ?_, trivial, trivial⟩, ⟨trivial, trivial, trivial⟩,
    List.forall_mem_nil _⟩, List.forall_mem_nil _⟩
  exact (Value.compare_eq_iff.1 hc).symm

theorem definite_text {name : String} (h : name.utf8ByteSize < 2 ^ 64) :
    ledger.Definite (.scalar .text none) (.datum (.text name)) :=
  .of_parts (.scalar h) (by simp) (by simp) fun _ _ hp => by cases hp

theorem definite_amount {i : Int} (hi : IntType.InRange ⟨true, .w16⟩ i) :
    ledger.Definite (.scalar (.int ⟨true, .w32⟩) (some (.var ⟨true, .w16⟩))) (.datum (.int i)) := by
  have hi' : IntType.InRange ⟨true, .w32⟩ i := by
    have hlow : -32768 ≤ i := hi.1
    have hhigh : i ≤ 32767 := hi.2
    exact ⟨show -2147483648 ≤ i by omega, show i ≤ 2147483647 by omega⟩
  refine .of_parts (.cast rfl rfl hi') (fun t w d heq => ?_) (by simp) fun _ _ hp => by cases hp
  cases heq
  simp [Scalar.convert, Wire.scalar, IntType.wrap_of_inRange hi, IntType.wrap_of_inRange hi']

theorem definite_balances :
    ledger.Definite balancesShape (.entries [balance "bob" (-2), balance "ann" 300]) := by
  have hparts : ∀ e ∈ [balance "bob" (-2), balance "ann" 300],
      ledger.Definite (.scalar .text none) e.1 ∧
      ledger.Definite (.scalar (.int ⟨true, .w32⟩) (some (.var ⟨true, .w16⟩))) e.2 := by
    simp only [List.forall_mem_cons]
    exact ⟨⟨definite_text (by decide), definite_amount (by decide)⟩,
      ⟨definite_text (by decide), definite_amount (by decide)⟩, List.forall_mem_nil _⟩
  have hseparate :
      Entries.Separate descending.compare (balance "bob" (-2)) (balance "ann" 300) := by
    intro k l hk hl hc
    rw [Value.compare_eq_iff.1 hc, hk] at hl
    simp [balance, Value.sorted] at hl
  refine .of_parts (.map (by decide) (List.pairwise_pair.2 hseparate)
    (fun e he => (hparts e he).1.fits) fun e he => (hparts e he).2.fits) (by simp) ?_ ?_
  · rintro keys key value es ⟨⟩ _
    exact List.pairwise_pair.2 (by decide)
  · intro s' v' hp
    cases hp with
    | key he => exact (hparts _ he).1
    | value he => exact (hparts _ he).2

theorem definite_page {balances : Entries} {next : Value}
    (hbalances : ledger.Definite balancesShape (.entries balances))
    (hnext : ledger.Definite (.option (.delegate (.ref "Ledger"))) next) :
    ledger.Definite (.ref "Ledger") (page balances next) := by
  have hfits : ledger.Fits (.ref "Ledger") (page balances next) := by
    refine .record rfl rfl ?_
    simp only [List.zip_cons_cons, List.zip_nil_right, List.forall_mem_cons]
    exact ⟨fun _ => hbalances.fits, fun _ => hnext.fits, List.forall_mem_nil _⟩
  refine .of_parts hfits (by simp) (by simp) fun s' v' hp => ?_
  unfold page at hp
  cases hp with
  | slot hf hmem _ =>
    cases hf
    simp only [List.zip_cons_cons, List.zip_nil_right, List.mem_cons, List.not_mem_nil,
      or_false, Prod.mk.injEq] at hmem
    rcases hmem with ⟨rfl, rfl⟩ | ⟨rfl, rfl⟩
    · exact hbalances
    · exact hnext

/-- A ledger of two pages differs from the first of its pages, as its bytes do.  The balances of a
page are written alike whichever of the two was entered first, and whether or not one of them was
corrected. -/
theorem equals_iff_encode_eq_ledger :
    let first := page [balance "bob" (-2), balance "ann" 300] .absent
    let both := page [balance "bob" (-2), balance "ann" 300] (.present first)
    ledger.Throughout (Shape.canonical ledger) (.ref "Ledger") ∧
    ledger.Throughout ledger.keysDistinguish (.ref "Ledger") ∧
    ledger.Definite (.ref "Ledger") first ∧ ledger.Definite (.ref "Ledger") both ∧
    ledger.encode .generic (.ref "Ledger") first =
      [2, 3, 98, 111, 98, 3, 3, 97, 110, 110, 216, 4, 0] ∧
    ledger.equals .expanded (.ref "Ledger") first both = false ∧
    ledger.encode .generic balancesShape
        (.entries (Entries.ofList [balance "bob" 7, balance "ann" 300, balance "bob" (-2)]
          descending.compare)) =
      ledger.encode .generic balancesShape
        (.entries (Entries.ofList [balance "bob" (-2), balance "ann" 300] descending.compare)) := by
  intro first both
  have hfirst : ledger.Definite (.ref "Ledger") first := by
    refine definite_page definite_balances (.of_parts .absent (by simp) (by simp) fun _ _ hp => ?_)
    cases hp
  have hboth : ledger.Definite (.ref "Ledger") both := by
    refine definite_page definite_balances
      (.of_parts (.present (.delegate hfirst.fits)) (by simp) (by simp) fun _ _ hp => ?_)
    cases hp with
    | present =>
      refine .of_parts (.delegate hfirst.fits) (by simp) (by simp) fun _ _ hp => ?_
      cases hp with
      | delegate => exact hfirst
  obtain ⟨hiff, hmaps⟩ := equals_iff_encode_eq (defaultsFit_of_nil rfl) canonical_ledger
    keysDistinguish_ledger hfirst hboth .expanded .generic
  have hbytes : ledger.encode .generic (.ref "Ledger") first =
      [2, 3, 98, 111, 98, 3, 3, 97, 110, 110, 216, 4, 0] := by cbv
  refine ⟨canonical_ledger, keysDistinguish_ledger, hfirst, hboth, hbytes, ?_, ?_⟩
  · rw [← Bool.not_eq_true, hiff, hbytes]
    decide +kernel
  · exact hmaps ⟨descending, .sorted⟩ _ _ _ _ rfl fun e => Iff.rfl

end Schema

end Marshal
