import Marshal.Proofs.Unfolding

/-!
# The receiver and the answer

Decoding overwrites a receiver, but no answer depends on what the receiver held: two receivers of a
shape get the same result from the same input.  After a success they hold the same, except in the
slots off the wire that are reached in place, through records, arrays and delegates.  Those slots
are never written, neither by a success nor by a failure.

`Schema.InPlace` relates two values of a shape along the parts that are decoded in place.  What is
related how is a parameter:

* `Schema.Kept`: the slots off the wire are the same;
* `Schema.Alike`: everything but the slots off the wire is the same.

The proof follows the value of the receiver, as the decoder does.  `Decoder.Matches` and
`Decoder.Keeps` are what it shows of each decoder on the way.
-/

namespace Marshal

/-! ### Decoders and two receivers -/

/-- With either of two receivers the decoder gives the same result, and after a success it leaves
receivers that are related by `R`. -/
structure Decoder.Matches (R : Value → Value → Prop) (d : Decoder) (v v' : Value) : Prop where
  ok : ∀ ⦃bs n w⦄, d v bs = ⟨.ok n, w⟩ → ∃ w', d v' bs = ⟨.ok n, w'⟩ ∧ R w w'
  error : ∀ ⦃bs e w⦄, d v bs = ⟨.error e, w⟩ → ∃ w', d v' bs = ⟨.error e, w'⟩

/-- Whatever the decoder reads, it leaves a receiver that is related to the old one by `K`. -/
def Decoder.Keeps (K : Value → Value → Prop) (d : Decoder) (v : Value) : Prop :=
  ∀ ⦃bs result w⦄, d v bs = ⟨result, w⟩ → K v w

theorem mem_zip_outer {α β γ : Type} {as : List α} {bs : List β} {cs : List γ} {p : α × β} {c : γ}
    (hl : as.length ≤ bs.length) (h : (p, c) ∈ (as.zip bs).zip cs) : (p.1, c) ∈ as.zip cs := by
  have hm := List.mem_map_of_mem (f := Prod.map Prod.fst id) h
  rwa [← List.zip_map_left, List.map_fst_zip hl] at hm

theorem length_decodeSlots {ds : List Decoder} {vs ws : List Value} {bs : List UInt8}
    {result : Except Fault Nat} (h : decodeSlots ds vs bs = (result, ws)) :
    ws.length = vs.length := by
  induction ds generalizing vs ws bs result with
  | nil => cases h; rfl
  | cons d ds ih =>
    cases vs with
    | nil => cases h; rfl
    | cons v vs =>
      cases result with
      | error e =>
        rcases decodeSlots_cons_eq_error.1 h with ⟨w, -, rfl⟩ | ⟨n, w, ws', -, hws, rfl⟩
        · rfl
        · exact congrArg Nat.succ (ih hws)
      | ok k =>
        obtain ⟨n, m, w, ws', -, hws, -, rfl⟩ := decodeSlots_cons_eq_ok.1 h
        exact congrArg Nat.succ (ih hws)

namespace Decoder

theorem Matches.imp {R Q : Value → Value → Prop} {d : Decoder} {v v' : Value}
    (h : d.Matches R v v') (hRQ : ∀ w w', R w w' → Q w w') : d.Matches Q v v' where
  ok _ _ w hw := by
    obtain ⟨w', hw', hR⟩ := h.ok hw
    exact ⟨w', hw', hRQ w w' hR⟩
  error _ _ _ hw := h.error hw

/-- Matching is a property of what a decoder does with the two receivers. -/
theorem Matches.congr {R : Value → Value → Prop} {d d' : Decoder} {v v' : Value}
    (hv : ∀ bs, d v bs = d' v bs) (hv' : ∀ bs, d v' bs = d' v' bs) (h : d'.Matches R v v') :
    d.Matches R v v' where
  ok bs n w hw := by
    rw [hv bs] at hw
    rw [hv' bs]
    exact h.ok hw
  error bs e w hw := by
    rw [hv bs] at hw
    rw [hv' bs]
    exact h.error hw

theorem matches_keep (v v' : Value) : keep.Matches (fun _ _ => True) v v' where
  ok _ _ _ h := by cases h; exact ⟨v', rfl, trivial⟩
  error _ _ _ h := by cases h

theorem keeps_keep (v : Value) : keep.Keeps Eq v := by
  intro bs result w h
  cases h
  rfl

theorem matches_ofReader (r : Reader Value) (v v' : Value) : (ofReader r).Matches Eq v v' where
  ok _ _ w h := ⟨w, ofReader_eq_ok.2 (ofReader_eq_ok.1 h), rfl⟩
  error _ _ _ h := ⟨v', ofReader_eq_error.2 ⟨(ofReader_eq_error.1 h).1, rfl⟩⟩

theorem matches_refill {α : Type} (checked : Bool) (item : Reader α) (build : List α → Value)
    (v v' : Value) : (refill checked item build).Matches Eq v v' where
  ok _ _ w h := by
    obtain ⟨count, k, as, hk, hc, has, hw⟩ := refill_eq_ok h
    exact ⟨w, hw ▸ refill_of_pass hk hc has, rfl⟩
  error _ _ _ h := by
    rcases refill_inv h with ⟨e', hk, he, -⟩ | ⟨count, k, hk, hc, hlt, he, -⟩ |
      ⟨count, k, as, hk, hc, has, -⟩
    · exact ⟨v', by simp only [refill, hk, he]⟩
    · rw [he]
      exact ⟨v', refill_of_refuse hk fun hpass => Nat.not_le.2 hlt (hpass hc)⟩
    · exact ⟨_, refill_of_pass hk hc has⟩

section Slots

variable {ι : Type} {f : ι → Decoder} {xs : List ι} {vs vs' ws : List Value} {bs : List UInt8}

theorem Matches.slots_ok {R : ι → Value → Value → Prop} (hl : xs.length = vs.length)
    (h : List.Forall₂ (fun p v' => (f p.1).Matches (R p.1) p.2 v') (xs.zip vs) vs') {n : Nat}
    (hn : decodeSlots (xs.map f) vs bs = (.ok n, ws)) :
    ∃ ws', decodeSlots (xs.map f) vs' bs = (.ok n, ws') ∧
      List.Forall₂ (fun p w' => R p.1 p.2 w') (xs.zip ws) ws' := by
  induction xs generalizing vs vs' bs n ws with
  | nil =>
    cases h
    cases hn
    exact ⟨[], rfl, .nil⟩
  | cons x xs ih =>
    cases vs with
    | nil => cases hl
    | cons v vs =>
      cases h with
      | cons hx hxs =>
        obtain ⟨k, m, w, ws, hw, hws, rfl, rfl⟩ := decodeSlots_cons_eq_ok.1 hn
        obtain ⟨w', hw', hR⟩ := hx.ok hw
        obtain ⟨ws', hws', hRs⟩ := ih (Nat.succ.inj hl) hxs hws
        exact ⟨w' :: ws', decodeSlots_cons_eq_ok.2 ⟨k, m, w', ws', hw', hws', rfl, rfl⟩,
          .cons hR hRs⟩

theorem Matches.slots_error {R : ι → Value → Value → Prop} (hl : xs.length = vs.length)
    (h : List.Forall₂ (fun p v' => (f p.1).Matches (R p.1) p.2 v') (xs.zip vs) vs') {e : Fault}
    (he : decodeSlots (xs.map f) vs bs = (.error e, ws)) :
    ∃ ws', decodeSlots (xs.map f) vs' bs = (.error e, ws') := by
  induction xs generalizing vs vs' bs ws with
  | nil => cases he
  | cons x xs ih =>
    cases vs with
    | nil => cases hl
    | cons v vs =>
      cases h with
      | @cons _ v' _ vs' hx hxs =>
        rcases decodeSlots_cons_eq_error.1 he with ⟨w, hw, -⟩ | ⟨n, w, us, hw, hus, -⟩
        · obtain ⟨w', hw'⟩ := hx.error hw
          exact ⟨w' :: vs', decodeSlots_cons_eq_error.2 (.inl ⟨w', hw', rfl⟩)⟩
        · obtain ⟨w', hw', -⟩ := hx.ok hw
          obtain ⟨ws', hws'⟩ := ih (Nat.succ.inj hl) hxs hus
          exact ⟨w' :: ws', decodeSlots_cons_eq_error.2 (.inr ⟨n, w', ws', hw', hws', rfl⟩)⟩

/-- What each decoder keeps of its slot is kept of all of them, also of those that are not reached
after a fault. -/
theorem Keeps.slots {K : ι → Value → Value → Prop} (hl : xs.length = vs.length)
    (hrefl : ∀ p ∈ xs.zip vs, K p.1 p.2 p.2) (h : ∀ p ∈ xs.zip vs, (f p.1).Keeps (K p.1) p.2)
    {result : Except Fault Nat} (hws : decodeSlots (xs.map f) vs bs = (result, ws)) :
    List.Forall₂ (fun p w => K p.1 p.2 w) (xs.zip vs) ws := by
  induction xs generalizing vs bs result ws with
  | nil =>
    cases hws
    obtain rfl := List.eq_nil_of_length_eq_zero hl.symm
    exact .nil
  | cons x xs ih =>
    cases vs with
    | nil => cases hl
    | cons v vs =>
      have hlen := Nat.succ.inj hl
      have hx := h (x, v) List.mem_cons_self
      have hrefl' p (hp : p ∈ xs.zip vs) := hrefl p (List.mem_cons_of_mem _ hp)
      have hrest {bs' result' us} (hus : decodeSlots (xs.map f) vs bs' = (result', us)) :=
        ih hlen hrefl' (fun p hp => h p (List.mem_cons_of_mem _ hp)) hus
      cases result with
      | error e =>
        rcases decodeSlots_cons_eq_error.1 hws with ⟨w, hw, rfl⟩ | ⟨n, w, us, hw, hus, rfl⟩
        · -- the slots behind the fault are as they were
          have hsame : List.Forall₂ (fun p w => K p.1 p.2 w) (xs.zip vs)
              ((xs.zip vs).map Prod.snd) :=
            List.forall₂_map_right_iff.2 (List.forall₂_same.2 hrefl')
          rw [List.map_snd_zip hlen.ge] at hsame
          exact .cons (hx hw) hsame
        · exact .cons (hx hw) (hrest hus)
      | ok k =>
        obtain ⟨n, m, w, us, hw, hus, -, rfl⟩ := decodeSlots_cons_eq_ok.1 hws
        exact .cons (hx hw) (hrest hus)

variable {parts? : Value → Option (List Value)} {build : List Value → Value}
  {decoders : List Value → List Decoder} {v v' : Value}

theorem Matches.inPlace (xs : List ι) (R : ι → Value → Value → Prop) {Q : Value → Value → Prop}
    (hv : parts? v = some vs) (hv' : parts? v' = some vs') (hd : decoders vs = xs.map f)
    (hd' : decoders vs' = xs.map f) (hl : xs.length = vs.length)
    (h : List.Forall₂ (fun p v' => (f p.1).Matches (R p.1) p.2 v') (xs.zip vs) vs')
    (hbuild : ∀ ws ws', xs.length = ws.length →
      List.Forall₂ (fun p w' => R p.1 p.2 w') (xs.zip ws) ws' → Q (build ws) (build ws')) :
    (inPlace parts? build decoders).Matches Q v v' where
  ok bs n w hn := by
    rcases inPlace_inv hn with ⟨us, ws, hus, hws, rfl⟩ | ⟨hnone, -⟩
    · cases hv.symm.trans hus
      rw [hd] at hws
      obtain ⟨ws', hws', hR⟩ := Matches.slots_ok hl h hws
      exact ⟨build ws', inPlace_of_parts hv' (hd' ▸ hws'),
        hbuild ws ws' (hl.trans (length_decodeSlots hws).symm) hR⟩
    · cases hv.symm.trans hnone
  error bs e w he := by
    rcases inPlace_inv he with ⟨us, ws, hus, hws, rfl⟩ | ⟨hnone, -⟩
    · cases hv.symm.trans hus
      rw [hd] at hws
      obtain ⟨ws', hws'⟩ := Matches.slots_error hl h hws
      exact ⟨build ws', inPlace_of_parts hv' (hd' ▸ hws')⟩
    · cases hv.symm.trans hnone

theorem Keeps.inPlace (xs : List ι) (K : ι → Value → Value → Prop) {Q : Value → Value → Prop}
    (hv : parts? v = some vs) (hd : decoders vs = xs.map f) (hl : xs.length = vs.length)
    (hrefl : ∀ p ∈ xs.zip vs, K p.1 p.2 p.2) (h : ∀ p ∈ xs.zip vs, (f p.1).Keeps (K p.1) p.2)
    (hbuild : ∀ ws, List.Forall₂ (fun p w => K p.1 p.2 w) (xs.zip vs) ws → Q v (build ws)) :
    (inPlace parts? build decoders).Keeps Q v := by
  intro bs result w hw
  rcases inPlace_inv hw with ⟨us, ws, hus, hws, rfl⟩ | ⟨hnone, -⟩
  · cases hv.symm.trans hus
    rw [hd] at hws
    exact hbuild ws (Keeps.slots hl hrefl h hws)
  · cases hv.symm.trans hnone

end Slots

end Decoder

/-! ### Values along the parts that are decoded in place -/

/-- A value of the shape is replaced or refilled as a whole. -/
def Shape.readsWhole : Shape → Bool
  | scalar _ _ | converted _ _ | staged _ | option _ | seq _ | map _ _ _ => true
  | delegate _ | ref _ | array _ _ => false

theorem Shape.matches_of_readsWhole (Γ : Schema) (named : String → Decoder) (style : Style)
    {s : Shape} (hs : s.readsWhole = true) (v v' : Value) :
    (s.decode Γ named style).Matches Eq v v' := by
  cases s with
  | scalar _ _ | converted _ _ | staged _ | option _ => exact Decoder.matches_ofReader _ v v'
  | seq s =>
    rw [Shape.decode_seq]
    exact Decoder.matches_refill _ _ _ v v'
  | map keys key value => exact Decoder.matches_refill _ _ _ v v'
  | delegate _ | ref _ | array _ _ => cases hs

namespace Schema

/-- Two values of a shape have the same records and arrays where these are decoded in place.  The
slots off the wire in them are related by `off`, and what is replaced as a whole by `whole`. -/
inductive InPlace (Γ : Schema) (whole off : Value → Value → Prop) : Shape → Value → Value → Prop
  where
  | whole {s v w} (hs : s.readsWhole = true) (h : whole v w) : InPlace Γ whole off s v w
  | holder {name u v w} (hf : Γ.find? name = some (.holder u)) (h : whole v w) :
      InPlace Γ whole off (.ref name) v w
  | delegate {s v w} (h : InPlace Γ whole off s v w) : InPlace Γ whole off (.delegate s) v w
  | array {size s vs ws} (hl : vs.length = ws.length)
      (h : ∀ v w, (v, w) ∈ vs.zip ws → InPlace Γ whole off s v w) :
      InPlace Γ whole off (.array size s) (.items vs) (.items ws)
  | record {name slots vs ws} (hf : Γ.find? name = some (.record slots))
      (hv : slots.length = vs.length) (hw : slots.length = ws.length)
      (hoff : ∀ slot v w, ((slot, v), w) ∈ (slots.zip vs).zip ws → slot.offWire = true → off v w)
      (h : ∀ slot v w, ((slot, v), w) ∈ (slots.zip vs).zip ws → slot.offWire = false →
        InPlace Γ whole off slot.shape v w) :
      InPlace Γ whole off (.ref name) (.record vs) (.record ws)

/-- The slots off the wire that are reached in place hold in `w` what they hold in `v`. -/
abbrev Kept (Γ : Schema) : Shape → Value → Value → Prop := Γ.InPlace (fun _ _ => True) Eq

/-- The values `v` and `w` are the same except in the slots off the wire that are reached in
place. -/
abbrev Alike (Γ : Schema) : Shape → Value → Value → Prop := Γ.InPlace Eq (fun _ _ => True)

variable {Γ : Schema} {whole off : Value → Value → Prop} {s : Shape} {r r' : Value}

theorem InPlace.array_of_forall₂ {ι : Type} {xs : List ι} {size : Nat} {vs ws : List Value}
    (hl : xs.length = vs.length)
    (h : List.Forall₂ (fun p w => Γ.InPlace whole off s p.2 w) (xs.zip vs) ws) :
    Γ.InPlace whole off (.array size s) (.items vs) (.items ws) := by
  have hvs : List.Forall₂ (Γ.InPlace whole off s) ((xs.zip vs).map Prod.snd) ws :=
    List.forall₂_map_left_iff.2 h
  rw [List.map_snd_zip hl.ge] at hvs
  obtain ⟨hlen, hmem⟩ := List.forall₂_iff_zip.1 hvs
  exact .array hlen fun v w hvw => hmem hvw

variable (Γ whole off) in
/-- The values of a slot are related by `off` or in place. -/
def SlotInPlace (slot : Slot) (v w : Value) : Prop :=
  if slot.offWire then off v w else Γ.InPlace whole off slot.shape v w

theorem InPlace.record_of_forall₂ {name : String} {slots : List Slot} {vs ws : List Value}
    (hf : Γ.find? name = some (.record slots)) (hl : slots.length = vs.length)
    (h : List.Forall₂ (fun p w => Γ.SlotInPlace whole off p.1 p.2 w) (slots.zip vs) ws) :
    Γ.InPlace whole off (.ref name) (.record vs) (.record ws) := by
  obtain ⟨hlen, hmem⟩ := List.forall₂_iff_zip.1 h
  rw [List.length_zip, ← hl, Nat.min_self] at hlen
  refine .record hf hl hlen (fun slot v w hvw ho => ?_) fun slot v w hvw ho => ?_
  · have := hmem hvw
    rwa [SlotInPlace, ho, if_pos rfl] at this
  · have := hmem hvw
    rwa [SlotInPlace, ho, if_neg Bool.false_ne_true] at this

/-- A value of a shape is related to itself. -/
theorem Fits.inPlace_refl (hwhole : ∀ v, whole v v) (hoff : ∀ v, off v v) (h : Γ.Fits s r) :
    Γ.InPlace whole off s r r := by
  induction h with
  | scalar _ | cast _ _ _ | converted _ _ | staged _ _ | absent | present _ _ | seq _ _ _
  | map _ _ _ _ _ _ => exact .whole rfl (hwhole _)
  | delegate _ ih => exact .delegate ih
  | @array size s vs hl _ ih =>
    refine .array rfl fun v w hvw => ?_
    rw [List.zip_eq_zipWith, List.zipWith_self, List.mem_map] at hvw
    obtain ⟨u, hu, heq⟩ := hvw
    obtain ⟨rfl, rfl⟩ := Prod.mk.inj heq
    exact ih _ hu
  | @record name slots vs hf hl _ ih =>
    refine .record_of_forall₂ hf hl ?_
    nth_rewrite 2 [← List.map_snd_zip hl.ge]
    refine List.forall₂_map_right_iff.2 (List.forall₂_same.2 fun p hp => ?_)
    cases ho : p.1.offWire with
    | true => simpa [SlotInPlace, ho] using hoff p.2
    | false => simpa [SlotInPlace, ho] using ih p hp ho
  | empty hf | held hf _ _ _ _ => exact .holder hf (hwhole _)

/-! ### Two runs -/

theorem decode_matches_of_readsWhole (hs : s.readsWhole = true) (style : Style) (v v' : Value) :
    (Γ.decode style s).Matches (Γ.Alike s) v v' := by
  have h (bs : List UInt8) : (s.decode Γ (Γ.decodeNamed bs.length Γ.decls.length) style).Matches
      (Γ.Alike s) v v' :=
    (Shape.matches_of_readsWhole Γ _ style hs v v').imp fun _ _ => .whole hs
  exact ⟨fun bs _ _ hw => (h bs).ok hw, fun bs _ _ hw => (h bs).error hw⟩

theorem decodeSlot_matches {slot : Slot} {v v' : Value}
    (h : slot.offWire = false →
      (Γ.decode .expanded slot.shape).Matches (Γ.Alike slot.shape) v v') :
    (Γ.decodeSlot slot).Matches (Γ.SlotInPlace Eq (fun _ _ => True) slot) v v' := by
  unfold decodeSlot SlotInPlace
  cases ho : slot.offWire with
  | true => exact Decoder.matches_keep v v'
  | false => exact h ho

/-- Two receivers of a shape get the same result, and after a success they are alike. -/
theorem Fits.decode_matches (hΓ : Γ.DefaultsFit) (hr : Γ.Fits s r) (hr' : Γ.Fits s r')
    (style : Style) :
    (Γ.decode style s).Matches (Γ.Alike s) r r' := by
  induction hr generalizing r' style with
  | scalar _ | cast _ _ _ | converted _ _ | staged _ _ | absent | present _ _ | seq _ _ _
  | map _ _ _ _ _ _ => exact decode_matches_of_readsWhole rfl style _ r'
  | delegate _ ih =>
    cases hr' with
    | delegate hr' => exact (ih hr' .generic).imp fun _ _ => .delegate
  | @array size s vs hl _ ih =>
    cases hr' with
    | @array _ _ vs' hl' hvs' =>
      have hlen : vs.length = vs'.length := hl.trans hl'.symm
      have hconst : (vs'.map fun _ => Γ.decode style s) = vs.map fun _ => Γ.decode style s := by
        rw [List.map_const', List.map_const', hlen]
      rw [decode_array]
      refine .inPlace vs (fun _ => Γ.Alike s) rfl rfl rfl hconst rfl ?_
        fun ws ws' hws hR => .array_of_forall₂ hws hR
      refine List.forall₂_iff_zip.2 ⟨by simp [hlen], fun {p v'} hp => ?_⟩
      have hv := (List.of_mem_zip (List.of_mem_zip hp).1).2
      exact ih p.2 hv (hvs' v' (List.of_mem_zip hp).2) style
  | @record name slots vs hf hl hvs ih =>
    cases hr' with
    | @record _ slots' vs' hf' hl' hvs' =>
      cases hf'.symm.trans hf
      refine .congr (decode_record hΓ style hf hl hvs) (decode_record hΓ style hf hl' hvs') ?_
      refine .inPlace slots (Γ.SlotInPlace Eq fun _ _ => True) rfl rfl rfl rfl hl ?_
        fun ws ws' hws hR => .record_of_forall₂ hf hws hR
      refine List.forall₂_iff_zip.2 ⟨by simp [← hl, hl'], fun {p v'} hp => ?_⟩
      refine decodeSlot_matches fun ho => ?_
      have hv' := mem_zip_outer hl.le hp
      exact ih p (List.of_mem_zip hp).1 ho (hvs' (p.1, v') hv' ho) .expanded
    | empty hf' | held hf' _ _ _ => cases hf.symm.trans hf'
  | empty hf | held hf _ _ _ _ =>
    rw [decode_holder style hf]
    exact (Decoder.matches_ofReader _ _ r').imp fun _ _ => .holder hf

/-! ### What is kept -/

theorem decodeSlot_keeps {slot : Slot} {v : Value}
    (h : slot.offWire = false → (Γ.decode .expanded slot.shape).Keeps (Γ.Kept slot.shape) v) :
    (Γ.decodeSlot slot).Keeps (Γ.SlotInPlace (fun _ _ => True) Eq slot) v := by
  unfold decodeSlot SlotInPlace
  cases ho : slot.offWire with
  | true => exact Decoder.keeps_keep v
  | false => exact h ho

/-- No slot off the wire that is reached in place is ever written. -/
theorem Fits.decode_keeps (hΓ : Γ.DefaultsFit) (hr : Γ.Fits s r) (style : Style) :
    (Γ.decode style s).Keeps (Γ.Kept s) r := by
  induction hr generalizing style with
  | scalar _ | cast _ _ _ | converted _ _ | staged _ _ | absent | present _ _ | seq _ _ _
  | map _ _ _ _ _ _ => exact fun _ _ _ _ => .whole rfl trivial
  | delegate _ ih => exact fun _ _ _ hw => .delegate (ih .generic hw)
  | @array size s vs hl hvs ih =>
    rw [decode_array]
    refine .inPlace vs (fun _ => Γ.Kept s) rfl rfl rfl (fun p hp => ?_) (fun p hp => ?_)
      fun ws hK => .array_of_forall₂ rfl hK
    · exact (hvs p.2 (List.of_mem_zip hp).2).inPlace_refl (fun _ => trivial) fun _ => rfl
    · exact ih p.2 (List.of_mem_zip hp).2 style
  | @record name slots vs hf hl hvs ih =>
    intro bs result w hw
    rw [decode_record hΓ style hf hl hvs] at hw
    refine Decoder.Keeps.inPlace slots (Γ.SlotInPlace (fun _ _ => True) Eq) rfl rfl hl
      (fun p hp => ?_) (fun p hp => decodeSlot_keeps fun ho => ih p hp ho .expanded)
      (fun ws hK => .record_of_forall₂ hf hl hK) hw
    unfold SlotInPlace
    cases ho : p.1.offWire with
    | true => rfl
    | false => exact (hvs p hp ho).inPlace_refl (fun _ => trivial) fun _ => rfl
  | empty hf | held hf _ _ _ _ => exact fun _ _ _ _ => .holder hf trivial

/-- **Decoding does not depend on the receiver.**  Two receivers of a shape get the same result from
any input, be it a count or a fault.  After a success they hold the same, except in the slots off
the wire that are reached in place.  These keep what they held, after a success and after a
failure. -/
theorem decode_receivers (hΓ : Γ.DefaultsFit) (hr : Γ.Fits s r) (hr' : Γ.Fits s r')
    (style : Style) (bs : List UInt8) :
    (Γ.decode style s r bs).result = (Γ.decode style s r' bs).result ∧
    (∀ n, (Γ.decode style s r bs).result = .ok n →
      Γ.Alike s (Γ.decode style s r bs).receiver (Γ.decode style s r' bs).receiver) ∧
    Γ.Kept s r (Γ.decode style s r bs).receiver ∧
    Γ.Kept s r' (Γ.decode style s r' bs).receiver := by
  have hmatch := hr.decode_matches hΓ hr' style
  refine ⟨?_, fun n hn => ?_, hr.decode_keeps hΓ style rfl, hr'.decode_keeps hΓ style rfl⟩
  · rcases h : Γ.decode style s r bs with ⟨e | n, w⟩
    · obtain ⟨w', hw'⟩ := hmatch.error h
      rw [hw']
    · obtain ⟨w', hw', -⟩ := hmatch.ok h
      rw [hw']
  · rcases h : Γ.decode style s r bs with ⟨e | k, w⟩
    · rw [h] at hn
      cases hn
    · obtain ⟨w', hw', hR⟩ := hmatch.ok h
      rw [hw']
      exact hR

/-- Shelves with two boxed entries.  Each has a text, and a number of uses that is off the wire. -/
def shelf : Schema :=
  { decls := [("Entry", .record [
      ⟨.name "text", .scalar .text none, false, false⟩,
      ⟨.name "uses", .scalar (.int ⟨false, .w32⟩) none, true, false⟩]),
    ("Shelf", .record [
      ⟨.name "pair", .array 2 (.delegate (.ref "Entry")), false, false⟩,
      ⟨.name "full", .scalar .bool none, false, false⟩])] }

/-- A shelf with two entries, given by their texts and uses. -/
def shelfOf (a b : String × Int) (full : Bool) : Value :=
  .record [.items ([a, b].map fun e => .record [.datum (.text e.1), .datum (.int e.2)]),
    .datum (.bool full)]

theorem fits_shelf {a b : String × Int} {full : Bool} (ha : a.1.utf8ByteSize < Width.w64.modulus)
    (hb : b.1.utf8ByteSize < Width.w64.modulus) :
    shelf.Fits (.ref "Shelf") (shelfOf a b full) := by
  have hentry {e : String × Int} (he : e.1.utf8ByteSize < Width.w64.modulus) :
      shelf.Fits (.delegate (.ref "Entry")) (.record [.datum (.text e.1), .datum (.int e.2)]) := by
    refine .delegate (.record rfl rfl fun p hp ho => ?_)
    simp only [List.zip_cons_cons, List.zip_nil_right, List.mem_cons, List.not_mem_nil,
      or_false] at hp
    rcases hp with rfl | rfl
    · exact .scalar he
    · cases ho
  refine .record rfl rfl fun p hp _ => ?_
  simp only [List.zip_cons_cons, List.zip_nil_right, List.mem_cons, List.not_mem_nil,
    or_false] at hp
  rcases hp with rfl | rfl
  · refine .array rfl fun v hv => ?_
    simp only [List.map_cons, List.map_nil, List.mem_cons, List.not_mem_nil, or_false] at hv
    rcases hv with rfl | rfl
    · exact hentry ha
    · exact hentry hb
  · exact .scalar trivial

/-- Two shelves get the same entries, and each keeps its own uses.  If the second text is not UTF-8
both fail for that, and still no uses have changed. -/
theorem decode_receivers_shelf :
    shelf.Fits (.ref "Shelf") (shelfOf ("x", 3) ("y", 4) true) ∧
    shelf.Fits (.ref "Shelf") (shelfOf ("", 5) ("z", 6) false) ∧
    shelf.Alike (.ref "Shelf") (shelfOf ("a", 3) ("b", 4) true) (shelfOf ("a", 5) ("b", 6) true) ∧
    (shelf.decode .generic (.ref "Shelf") (shelfOf ("x", 3) ("y", 4) true) [1, 97, 1, 255]).result =
      .error .notUtf8 ∧
    (shelf.decode .generic (.ref "Shelf") (shelfOf ("", 5) ("z", 6) false) [1, 97, 1, 255]).result =
      .error .notUtf8 ∧
    shelf.Kept (.ref "Shelf") (shelfOf ("", 5) ("z", 6) false)
      (shelfOf ("a", 5) ("z", 6) false) := by
  have hr : shelf.Fits (.ref "Shelf") (shelfOf ("x", 3) ("y", 4) true) :=
    fits_shelf (by decide) (by decide)
  have hr' : shelf.Fits (.ref "Shelf") (shelfOf ("", 5) ("z", 6) false) :=
    fits_shelf (by decide) (by decide)
  have hgood : shelf.decode .generic (.ref "Shelf") (shelfOf ("x", 3) ("y", 4) true)
      [1, 97, 1, 98, 1] = ⟨.ok 5, shelfOf ("a", 3) ("b", 4) true⟩ := by cbv
  have hgood' : shelf.decode .generic (.ref "Shelf") (shelfOf ("", 5) ("z", 6) false)
      [1, 97, 1, 98, 1] = ⟨.ok 5, shelfOf ("a", 5) ("b", 6) true⟩ := by cbv
  have hbad : shelf.decode .generic (.ref "Shelf") (shelfOf ("", 5) ("z", 6) false)
      [1, 97, 1, 255] = ⟨.error .notUtf8, shelfOf ("a", 5) ("z", 6) false⟩ := by cbv
  have hΓ : shelf.DefaultsFit := defaultsFit_of_nil rfl
  have halike := (decode_receivers hΓ hr hr' .generic [1, 97, 1, 98, 1]).2.1 5
  obtain ⟨hsame, -, -, hkept⟩ := decode_receivers hΓ hr hr' .generic [1, 97, 1, 255]
  rw [hgood, hgood'] at halike
  rw [hbad] at hsame hkept
  exact ⟨hr, hr', halike rfl, hsame, congrArg Outcome.result hbad, hkept⟩

end Schema

end Marshal
