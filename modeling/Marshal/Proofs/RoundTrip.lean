import Marshal.Proofs.Encoding
import Marshal.Proofs.Landing
import Marshal.Proofs.Locality

/-!
# Encoding and decoding

What was written for a value is read back, whatever follows it and whatever the receiver held
(`Schema.decode_encodeOnto`).  `Decoder.Takes` carries `Reader.Reads` over to decoders, and
`Schema.Fits.arrives` is the induction over values.  It does not ask that casts can be undone: each
encoding is accepted, and only what it lands as depends on the casts.

Since decoding is local, an encoding that is cut off is neither accepted nor refused for any other
reason than its end (`Schema.decode_cut`).
-/

namespace Marshal

/-! ### Decoders that take what was written -/

/-- Parts that can each be had can be had together. -/
theorem exists_forall₂ {α β : Type} {R : α → β → Prop} {as : List α}
    (h : ∀ a ∈ as, ∃ b, R a b) : ∃ bs, List.Forall₂ R as bs := by
  induction as with
  | nil => exact ⟨[], .nil⟩
  | cons a as ih =>
    obtain ⟨b, hb⟩ := h a List.mem_cons_self
    obtain ⟨bs, hbs⟩ := ih fun c hc => h c (List.mem_cons_of_mem a hc)
    exact ⟨b :: bs, .cons hb hbs⟩

/-- A reader that takes each of several pieces collects them all. -/
theorem Reader.reads_collect {α ι : Type} {r : Reader α} {m : Nat} {bytes : ι → List UInt8}
    {xs : List ι} {as : List α} (h : List.Forall₂ (fun x a => r.Reads m (bytes x) a) xs as)
    {rest : List UInt8} (hm : (xs.flatMap bytes ++ rest).length < m) (used : Nat) (got : Array α) :
    r.collect xs.length (xs.flatMap bytes ++ rest) used got =
      (.ok (used + (xs.flatMap bytes).length), got ++ as.toArray) := by
  induction h generalizing used got with
  | nil => simp [collect]
  | @cons x a xs as hx _ ih =>
    rw [List.flatMap_cons, List.append_assoc] at hm ⊢
    have hm' : (xs.flatMap bytes ++ rest).length < m := by
      rw [List.length_append] at hm
      omega
    refine collect_succ_eq_ok.2 ⟨a, (bytes x).length, hx _ hm, ?_⟩
    rw [List.drop_left, ih hm', List.length_append, Nat.add_assoc, List.toArray_cons]
    simp

namespace Decoder

/-- From every input of fewer than `m` bytes that starts with `bs`, the decoder takes `bs` and
leaves `w` in the receiver `r`. -/
def Takes (m : Nat) (d : Decoder) (r : Value) (bs : List UInt8) (w : Value) : Prop :=
  ∀ rest, (bs ++ rest).length < m → d r (bs ++ rest) = ⟨.ok bs.length, w⟩

theorem takes_ofReader {m : Nat} {rd : Reader Value} {bs : List UInt8} {w : Value}
    (h : rd.Reads m bs w) (r : Value) : (ofReader rd).Takes m r bs w :=
  fun rest hm => ofReader_eq_ok.2 (h rest hm)

theorem Takes.fresh {m : Nat} {d : Decoder} {b w : Value} {bs : List UInt8}
    (h : d.Takes m b bs w) : (d.fresh b).Reads m bs w :=
  fun rest hm => fresh_eq_ok.2 (h rest hm)

/-- The items behind a count are taken, and the check of the count lets them pass. -/
theorem takes_refill {α ι : Type} {checked : Bool} {item : Reader α} {bytes : ι → List UInt8}
    {xs : List ι} {as : List α} {m : Nat} (build : List α → Value) (hl : xs.length < 2 ^ 64)
    (hu : checked = true → item.Uses 1)
    (h : List.Forall₂ (fun x a => item.Reads (m - 1) (bytes x) a) xs as) (r : Value) :
    (refill checked item build).Takes m r (Varint.write xs.length ++ xs.flatMap bytes)
      (build as) := by
  intro rest hm
  have hpos := Varint.length_write_pos xs.length
  rw [List.append_assoc] at hm ⊢
  have hm' : (xs.flatMap bytes ++ rest).length < m - 1 := by
    rw [List.length_append] at hm
    omega
  have hread := Varint.reads_write hl (xs.flatMap bytes ++ rest) hm
  have hcount : xs.length.toUInt64.toNat = xs.length := by simpa using hl
  have hcollect : item.collect xs.length.toUInt64.toNat
      ((Varint.write xs.length ++ (xs.flatMap bytes ++ rest)).drop (Varint.write xs.length).length)
      (Varint.write xs.length).length #[] =
        (.ok ((Varint.write xs.length).length + (xs.flatMap bytes).length), as.toArray) := by
    rw [hcount, List.drop_left, Reader.reads_collect h hm', Array.empty_append]
  rw [List.length_append]
  refine refill_of_pass hread (fun hc => ?_) hcollect
  have := (hu hc).collect hcollect
  rw [List.drop_left, List.length_append]
  omega

/-- Parts that are decoded in place are taken one after the other. -/
theorem takes_inPlace {ι : Type} {parts? : Value → Option (List Value)}
    {build : List Value → Value} {decoders : List Value → List Decoder} {m : Nat}
    (decoder : ι → Decoder) (part : ι → Value) {bytes : ι → List UInt8} {xs : List ι}
    {ws : List Value} {r : Value} (hr : parts? r = some (xs.map part))
    (hd : decoders (xs.map part) = xs.map decoder)
    (h : List.Forall₂ (fun x w => (decoder x).Takes m (part x) (bytes x) w) xs ws) :
    (inPlace parts? build decoders).Takes m r (xs.flatMap bytes) (build ws) := by
  intro rest hm
  refine inPlace_of_parts hr (hd ▸ ?_)
  clear hr hd
  induction h with
  | nil => rfl
  | @cons x w xs ws hx _ ih =>
    rw [List.flatMap_cons, List.append_assoc] at hm ⊢
    refine decodeSlots_cons_eq_ok.2
      ⟨(bytes x).length, (xs.flatMap bytes).length, w, ws, hx _ hm, ?_, by simp, rfl⟩
    rw [List.drop_left]
    rw [List.length_append] at hm
    exact ih (by omega)

end Decoder

namespace Schema

variable {Γ : Schema}

/-! ### References -/

/-- With the given limit and budget, a value of the shape can be decoded from every input of fewer
than `m` bytes: a byte has been used since the limit was set, or the budget lasts to the next
one. -/
def Enough (Γ : Schema) (limit budget m : Nat) (s : Shape) : Prop :=
  m ≤ limit ∨ (m ≤ limit + 1 ∧ Γ.Grounded budget s)

/-- In every style and with every limit and budget that is enough, decoding takes what is written
for `v` and leaves `w` in the receiver `r`. -/
def Accepts (Γ : Schema) (s : Shape) (r v w : Value) : Prop :=
  ∀ style limit budget m, Γ.Enough limit budget m s →
    (s.decode Γ (Γ.decodeNamed limit budget) style).Takes m r (Γ.encode .generic s v) w

/-- After a byte any budget is enough. -/
theorem Enough.after_byte {limit budget m : Nat} {s : Shape} (h : Γ.Enough limit budget m s)
    (s' : Shape) : Γ.Enough limit budget (m - 1) s' := by
  unfold Enough at *
  omega

/-- A value of a declared type is taken if its declaration takes it with any limit and with any
budget that lasts for its slots. -/
theorem takes_ref {name : String} {d : Decl} {r w : Value} {bs : List UInt8}
    (hf : Γ.find? name = some d) (hname : Γ.EndsWithin Γ.decls.length name)
    (h : ∀ limit budget, Γ.EndsWithin (budget + 1) name →
      (d.decode Γ (Γ.decodeNamed limit budget)).Takes (limit + 1) r bs w)
    {limit budget m : Nat} (hb : Γ.Enough limit budget m (.ref name)) :
    (Γ.decodeNamed limit budget name).Takes m r bs w := by
  intro rest hm
  by_cases hlt : (bs ++ rest).length < limit
  · -- a byte was used since the limit was set, and the budget starts afresh
    rw [decodeNamed_of_lt hlt]
    cases hN : Γ.decls.length with
    | zero => rw [hN] at hname; cases hname
    | succ N =>
      rw [decodeNamed_of_find (Nat.le_refl _) hf]
      exact h _ N (hN ▸ hname) rest (Nat.lt_succ_self _)
  · obtain ⟨hm', hg⟩ : m ≤ limit + 1 ∧ Γ.Grounded budget (.ref name) :=
      hb.resolve_left fun hle => hlt (hm.trans_le hle)
    have hend := hg name List.mem_cons_self
    cases budget with
    | zero => cases hend
    | succ budget =>
      rw [decodeNamed_of_find (Nat.not_lt.1 hlt) hf]
      exact h limit budget hend rest (hm.trans_le hm')

/-! ### One level of a value -/

theorem accepts_scalar {s : Scalar} {d : Datum} (h : s.Has d) (r : Value) :
    Γ.Accepts (.scalar s none) r (.datum d) (.datum d) := by
  intro style limit budget m _
  exact Decoder.takes_ofReader ((Wire.reads_write m (s.scalar_wire.symm ▸ h)).map _) r

theorem accepts_cast {s : Scalar} {w : Wire} {d : Datum} (hs : s.numeric) (hw : w.numeric)
    (h : s.Has d) (r : Value) :
    Γ.Accepts (.scalar s (some w)) r (.datum d)
      (.datum (w.scalar.convert s (s.convert w.scalar d))) := by
  intro style limit budget m _
  exact Decoder.takes_ofReader ((Wire.reads_write m (Scalar.has_convert hs hw h)).map _) r

theorem accepts_converted {c : Conversion} {w : Wire} {d : Datum}
    (h : w.scalar.Has (c.toWire d)) (r : Value) :
    Γ.Accepts (.converted c w) r (.datum d) (.datum (c.ofWire (c.toWire d))) := by
  intro style limit budget m _
  exact Decoder.takes_ofReader ((Wire.reads_write m h).map _) r

theorem accepts_staged {s : Shape} {v w : Value} (h : Γ.Accepts s (Γ.blank s) v w) (r : Value) :
    Γ.Accepts (.staged s) r v w :=
  fun style limit budget m hb => Decoder.takes_ofReader (h style limit budget m hb).fresh r

theorem accepts_absent (s : Shape) (r : Value) : Γ.Accepts (.option s) r .absent .absent :=
  fun _ _ _ _ _ =>
    Decoder.takes_ofReader (Reader.Reads.byte_andThen (Reader.reads_pure _ _)) r

theorem accepts_present {s : Shape} {v w : Value} (h : Γ.Accepts s (Γ.blank s) v w) (r : Value) :
    Γ.Accepts (.option s) r (.present v) (.present w) := by
  intro style limit budget m hb
  rw [encode_present]
  refine Decoder.takes_ofReader (Reader.Reads.byte_andThen ?_) r
  exact (h style limit budget (m - 1) (hb.after_byte s)).fresh.map _

theorem accepts_array {size : Nat} {s : Shape} {rs vs ws : List Value} (hl : vs.length = size)
    (hr : rs.length = vs.length)
    (h : List.Forall₂ (fun x w => Γ.Accepts s x.1 x.2 w) (rs.zip vs) ws) :
    Γ.Accepts (.array size s) (.items rs) (.items vs) (.items ws) := by
  intro style limit budget m hb
  have hfst : (rs.zip vs).map Prod.fst = rs := List.map_fst_zip hr.le
  have hsnd : (rs.zip vs).map Prod.snd = vs := List.map_snd_zip hr.ge
  have hbytes : Γ.encode .generic (.array size s) (.items vs) =
      (rs.zip vs).flatMap fun x => Γ.encode .generic s x.2 := by
    rw [encode_array]
    nth_rewrite 1 [← hsnd]
    rw [List.flatMap_map]
  rw [hbytes]
  refine Decoder.takes_inPlace (fun _ => s.decode Γ (Γ.decodeNamed limit budget) style) Prod.fst
    (by rw [hfst]; rfl) (by rw [List.map_map]; rfl) ?_
  -- an empty array refers to nothing, whatever its shape
  by_cases hsize : size = 0
  · obtain rfl : vs = [] := List.eq_nil_of_length_eq_zero (hl.trans hsize)
    rw [List.zip_nil_right] at h ⊢
    cases h
    exact .nil
  · refine h.imp fun x w hx => hx style limit budget m (hb.imp_right fun ⟨hm, hg⟩ => ⟨hm, ?_⟩)
    simpa [Grounded, Shape.direct, hsize] using hg

theorem accepts_seq {s : Shape} {vs ws : List Value} (hl : vs.length < 2 ^ 64)
    (h : List.Forall₂ (Γ.Accepts s (Γ.blank s)) vs ws) (r : Value) :
    Γ.Accepts (.seq s) r (.items vs) (.items ws) := by
  intro style limit budget m hb
  rw [encode_seq (by simp), Shape.decode_seq]
  refine Decoder.takes_refill _ hl (fun hc => ?_) ?_ r
  · rw [Bool.and_eq_true] at hc
    exact (Shape.uses_decode Γ _ style hc.2).fresh _
  · exact h.imp fun v w hw => (hw style limit budget (m - 1) (hb.after_byte s)).fresh

theorem accepts_map {keys : Keys} {key value : Shape} {es fs : Entries}
    (hl : es.length < 2 ^ 64)
    (h : List.Forall₂ (fun e f => Γ.Accepts key (Γ.blank key) e.1 f.1 ∧
      Γ.Accepts value (Γ.blank value) e.2 f.2) es fs) (r : Value) :
    Γ.Accepts (.map keys key value) r (.entries es)
      (.entries (Entries.ofList fs keys.compare)) := by
  intro style limit budget m hb
  rw [encode_map]
  refine Decoder.takes_refill (fun es => .entries (Entries.ofList es keys.compare)) hl
    (fun hc => ?_) ?_ r
  · rw [Bool.and_eq_true] at hc
    exact Shape.uses_entry Γ _ style hc.2
  · refine h.imp fun e f ⟨hk, hv⟩ => ?_
    have hk' := (hk style limit budget (m - 1) (hb.after_byte key)).fresh
    have hv' := (hv style limit budget (m - 1) (hb.after_byte value)).fresh
    exact hk'.andThen (hv'.map (f.1, ·)) (Nat.le_add_right _ _)

/-- A slot is decoded in place, or left as it is in the receiver. -/
theorem takes_slot {slot : Slot} {u v w : Value} {limit budget : Nat}
    (hg : slot.offWire = false → Γ.Grounded budget slot.shape)
    (h : if slot.offWire then w = u
      else Γ.Fits slot.shape v ∧ Γ.Accepts slot.shape u v w) :
    (slot.decode Γ (Γ.decodeNamed limit budget)).Takes (limit + 1) u
      (if slot.offWire then [] else Γ.encode .expanded slot.shape v) w := by
  cases ho : slot.offWire with
  | true =>
    rw [ho, if_pos rfl] at h
    intro rest _
    simp only [Slot.decode, ho, ↓reduceIte, Decoder.keep]
    rw [h]
    rfl
  | false =>
    rw [ho, if_neg Bool.false_ne_true] at h
    obtain ⟨hfits, hacc⟩ := h
    simp only [Slot.decode, ho, Bool.false_eq_true, ↓reduceIte]
    rw [hfits.encode_style .expanded]
    exact hacc .expanded limit budget (limit + 1) (.inr ⟨Nat.le_refl _, hg ho⟩)

theorem accepts_record {name : String} {slots : List Slot} {rs vs ws : List Value}
    (hf : Γ.find? name = some (.record slots)) (hname : Γ.EndsWithin Γ.decls.length name)
    (hr : slots.length = rs.length) (hv : slots.length = vs.length)
    (h : List.Forall₂ (fun x w => if x.1.offWire then w = x.2.1
      else Γ.Fits x.1.shape x.2.2 ∧ Γ.Accepts x.1.shape x.2.1 x.2.2 w) (slots.zip (rs.zip vs)) ws) :
    Γ.Accepts (.ref name) (.record rs) (.record vs) (.record ws) := by
  intro style limit budget m hb
  refine takes_ref hf hname (fun limit budget hend => ?_) hb
  have hbytes : Γ.encode .generic (.ref name) (.record vs) =
      (slots.zip (rs.zip vs)).flatMap fun x =>
        if x.1.offWire then [] else Γ.encode .expanded x.1.shape x.2.2 := by
    have hsnd : (slots.zip (rs.zip vs)).map (Prod.map id Prod.snd) = slots.zip vs := by
      rw [← List.zip_map_right, List.map_snd_zip (by omega)]
    rw [encode_record .generic hf, ← hsnd, List.flatMap_map]
    rfl
  have hfst : (slots.zip (rs.zip vs)).map Prod.fst = slots := List.map_fst_zip (by simp; omega)
  have hrs : (slots.zip (rs.zip vs)).map (Prod.fst ∘ Prod.snd) = rs := by
    rw [← List.map_map, List.map_snd_zip (by simp; omega), List.map_fst_zip (by omega)]
  rw [hbytes]
  refine Decoder.takes_inPlace (fun x => x.1.decode Γ (Γ.decodeNamed limit budget))
    (Prod.fst ∘ Prod.snd) (by rw [hrs]; rfl) ?_ ?_
  · nth_rewrite 1 [← hfst]
    rw [List.map_map]
    rfl
  · refine List.forall₂_iff_zip.2 ⟨h.length_eq, fun {x w} hxw => ?_⟩
    have hslot : x.1 ∈ slots := (List.of_mem_zip (List.of_mem_zip hxw).1).1
    exact takes_slot (Grounded.slot hend hf hslot) ((List.forall₂_iff_zip.1 h).2 hxw)

theorem accepts_empty {name : String} {u : Members} (hf : Γ.find? name = some (.holder u))
    (hname : Γ.EndsWithin Γ.decls.length name) (r : Value) :
    Γ.Accepts (.ref name) r .absent .absent := by
  intro style limit budget m hb
  rw [encode_empty .generic hf]
  exact takes_ref hf hname (fun _ _ _ => Decoder.takes_ofReader (Reader.Reads.byte_andThen
    (Reader.reads_pure _ _)) r) hb

theorem accepts_held {name : String} {u : Members} {tag : Nat} {mem : Member} {v w : Value}
    (hf : Γ.find? name = some (.holder u)) (hname : Γ.EndsWithin Γ.decls.length name)
    (hm : u.member? tag = some mem) (ht : tag < 256) (hv : Γ.Fits mem.shape v)
    (h : Γ.Accepts mem.shape (Γ.blank mem.shape) v w) (r : Value) :
    Γ.Accepts (.ref name) r (.present (.member tag v)) (.present (.member tag w)) := by
  intro style limit budget m hb
  rw [encode_held .generic hf hm]
  refine takes_ref hf hname (fun limit budget _ => ?_) hb
  have htag : tag.toUInt8.toNat = tag := Nat.mod_eq_of_lt ht
  have hzero : tag.toUInt8 ≠ 0 := by
    intro h0
    rw [h0] at htag
    subst htag
    cases hm
  refine Decoder.takes_ofReader (Reader.Reads.byte_andThen ?_) r
  rw [if_neg hzero, Members.readMember, htag, hm, hv.encode_style .expanded]
  exact ((h .expanded limit budget limit (.inl (Nat.le_refl _))).fresh.map _).map _

/-! ### All of a value -/

/-- Decoding takes what is written for `v` and leaves `w` in the receiver, and if the wire loses
nothing of `v`, that is `v` as it lands there. -/
def Arrives (Γ : Schema) (s : Shape) (r v w : Value) : Prop :=
  Γ.Accepts s r v w ∧ (Γ.Exact s v → Γ.Lands s r v w)

theorem arrives_array {size : Nat} {s : Shape} {rs vs ws : List Value} (hl : vs.length = size)
    (hr : rs.length = vs.length)
    (h : List.Forall₂ (fun x w => Γ.Arrives s x.1 x.2 w) (rs.zip vs) ws) :
    Γ.Arrives (.array size s) (.items rs) (.items vs) (.items ws) := by
  refine ⟨accepts_array hl hr (h.imp fun _ _ hx => hx.1), fun hx => ?_⟩
  have hw := h.length_eq
  rw [List.length_zip, hr, Nat.min_self] at hw
  refine .array hr hw fun u v w huvw => ?_
  have hv := (List.of_mem_zip (List.of_mem_zip huvw).1).2
  exact ((List.forall₂_iff_zip.1 h).2 huvw).2 (hx.part (.array hv))

theorem arrives_seq {s : Shape} {vs ws : List Value} (hl : vs.length < 2 ^ 64)
    (h : List.Forall₂ (Γ.Arrives s (Γ.blank s)) vs ws) (r : Value) :
    Γ.Arrives (.seq s) r (.items vs) (.items ws) := by
  refine ⟨accepts_seq hl (h.imp fun _ _ hx => hx.1) r, fun hx => ?_⟩
  refine .seq h.length_eq fun v w hvw => ?_
  exact ((List.forall₂_iff_zip.1 h).2 hvw).2 (hx.part (.seq (List.of_mem_zip hvw).1))

theorem arrives_map {keys : Keys} {key value : Shape} {es fs : Entries}
    (hl : es.length < 2 ^ 64) (hd : es.Pairwise (Entries.Separate keys.compare))
    (hfits : ∀ e ∈ es, Γ.Fits key e.1)
    (h : List.Forall₂ (fun e f => Γ.Arrives key (Γ.blank key) e.1 f.1 ∧
      Γ.Arrives value (Γ.blank value) e.2 f.2) es fs) (r : Value) :
    Γ.Arrives (.map keys key value) r (.entries es)
      (.entries (Entries.ofList fs keys.compare)) := by
  refine ⟨accepts_map hl (h.imp fun _ _ hx => ⟨hx.1.1, hx.2.1⟩) r, fun hx => ?_⟩
  obtain ⟨hlen, hall⟩ := List.forall₂_iff_zip.1 h
  have hkey e f (hef : (e, f) ∈ es.zip fs) : Γ.Lands key (Γ.blank key) e.1 f.1 :=
    (hall hef).1.2 (hx.part (.key (List.of_mem_zip hef).1))
  -- no two keys that were read count as the same, so the map has all the entries
  rw [Entries.ofList_eq_inOrder (apart_of_lands hd hlen hfits (hx.keys .refl) hkey)]
  refine .map hlen hkey fun e f hef => ?_
  exact (hall hef).2.2 (hx.part (.value (List.of_mem_zip hef).1))

theorem arrives_record {name : String} {slots : List Slot} {rs vs ws : List Value}
    (hf : Γ.find? name = some (.record slots)) (hname : Γ.EndsWithin Γ.decls.length name)
    (hr : slots.length = rs.length) (hv : slots.length = vs.length)
    (h : List.Forall₂ (fun x w => if x.1.offWire then w = x.2.1
      else Γ.Fits x.1.shape x.2.2 ∧ Γ.Arrives x.1.shape x.2.1 x.2.2 w) (slots.zip (rs.zip vs)) ws) :
    Γ.Arrives (.ref name) (.record rs) (.record vs) (.record ws) := by
  refine ⟨accepts_record hf hname hr hv (h.imp fun x w hx => ?_), fun hx => ?_⟩
  · split_ifs at hx ⊢
    · exact hx
    · exact ⟨hx.1, hx.2.1⟩
  · have hw := h.length_eq
    rw [List.length_zip, List.length_zip, ← hr, ← hv, Nat.min_self, Nat.min_self] at hw
    refine .record hf hr hv hw (fun slot u v w hm ho => ?_) fun slot u v w hm ho => ?_
    · have hxw := (List.forall₂_iff_zip.1 h).2 hm
      rwa [ho, if_pos rfl] at hxw
    · have hxw := (List.forall₂_iff_zip.1 h).2 hm
      rw [ho, if_neg Bool.false_ne_true] at hxw
      have hslot := mem_zip_snd (hv ▸ hr).le (List.of_mem_zip hm).1
      exact hxw.2.2 (hx.part (.slot hf hslot ho))

/-- What is written for a value is accepted, and if the wire loses nothing of the value it lands in
the receiver. -/
theorem Fits.arrives {s : Shape} {v r : Value} (hΓ : Γ.DefaultsFit) (hv : Γ.Fits s v)
    (hr : Γ.Fits s r) :
    ∃ w, Γ.Arrives s r v w := by
  induction hv generalizing r with
  | scalar hd => exact ⟨_, accepts_scalar hd r, fun _ => .scalar⟩
  | cast hs hw hd =>
    refine ⟨_, accepts_cast hs hw hd r, fun hx => ?_⟩
    rw [hx.cast .refl]
    exact .scalar
  | converted hc hd =>
    refine ⟨_, accepts_converted (hc _ hd) r, fun hx => ?_⟩
    rw [hx.converted .refl]
    exact .converted
  | delegate _ ih =>
    cases hr with
    | delegate hr =>
      obtain ⟨w, hw, hland⟩ := ih hr
      exact ⟨w, fun _ => hw .generic, fun hx => .delegate (hland (hx.part .delegate))⟩
  | staged h ih =>
    obtain ⟨w, hw, hland⟩ := ih (h.blank hΓ)
    exact ⟨w, accepts_staged hw r, fun hx => .staged (hland (hx.part .staged))⟩
  | absent => exact ⟨.absent, accepts_absent _ r, fun _ => .absent⟩
  | present h ih =>
    obtain ⟨w, hw, hland⟩ := ih (h.blank hΓ)
    exact ⟨.present w, accepts_present hw r, fun hx => .present (hland (hx.part .present))⟩
  | @array size s vs hl h ih =>
    cases hr with
    | @array _ _ rs hl' hrs =>
      obtain ⟨ws, hws⟩ : ∃ ws, List.Forall₂ (fun x w => Γ.Arrives s x.1 x.2 w) (rs.zip vs) ws :=
        exists_forall₂ fun x hx =>
          ih x.2 (List.of_mem_zip hx).2 (hrs x.1 (List.of_mem_zip hx).1)
      exact ⟨_, arrives_array hl (hl'.trans hl.symm) hws⟩
  | seq hl h ih =>
    obtain ⟨ws, hws⟩ := exists_forall₂ fun v hv => ih v hv ((h v hv).blank hΓ)
    exact ⟨_, arrives_seq hl hws r⟩
  | @map keys key value es hl hd hk hv ihk ihv =>
    obtain ⟨fs, hfs⟩ : ∃ fs : Entries, List.Forall₂ (fun e f =>
        Γ.Arrives key (Γ.blank key) e.1 f.1 ∧ Γ.Arrives value (Γ.blank value) e.2 f.2) es fs := by
      refine exists_forall₂ fun e he => ?_
      obtain ⟨k, hk⟩ := ihk e he ((hk e he).blank hΓ)
      obtain ⟨w, hw⟩ := ihv e he ((hv e he).blank hΓ)
      exact ⟨(k, w), hk, hw⟩
    exact ⟨_, arrives_map hl hd hk hfs r⟩
  | @record name slots vs hf hl h ih =>
    have hname := (Fits.record hf hl h).grounded _ List.mem_cons_self
    cases hr with
    | @record _ slots' rs hf' hl' hrs =>
      obtain rfl : slots' = slots := by cases hf'.symm.trans hf; rfl
      obtain ⟨ws, hws⟩ : ∃ ws, List.Forall₂ (fun x w => if x.1.offWire then w = x.2.1
          else Γ.Fits x.1.shape x.2.2 ∧ Γ.Arrives x.1.shape x.2.1 x.2.2 w)
          (slots'.zip (rs.zip vs)) ws := by
        refine exists_forall₂ fun (slot, u, v) hx => ?_
        cases ho : slot.offWire with
        | true => exact ⟨u, by simp⟩
        | false =>
          have hv := mem_zip_snd (hl ▸ hl').le hx
          have hu := mem_zip_fst (hl ▸ hl').ge hx
          obtain ⟨w, hw⟩ := ih (slot, v) hv ho (hrs (slot, u) hu ho)
          exact ⟨w, by simpa [ho] using ⟨h (slot, v) hv ho, hw⟩⟩
      exact ⟨_, arrives_record hf hname hl' hl hws⟩
    | empty hf' => cases hf.symm.trans hf'
    | held hf' _ _ _ => cases hf.symm.trans hf'
  | empty hf =>
    have hname := (Fits.empty hf).grounded _ List.mem_cons_self
    exact ⟨.absent, accepts_empty hf hname r, fun _ => .empty hf⟩
  | held hf hm ht h ih =>
    have hname := (Fits.held hf hm ht h).grounded _ List.mem_cons_self
    obtain ⟨w, hw, hland⟩ := ih (h.blank hΓ)
    exact ⟨_, accepts_held hf hname hm ht h hw r,
      fun hx => .held hf hm (hland (hx.part (.held hf hm)))⟩

/-- A value that is accepted is decoded in any style, with the budget that decoding starts with. -/
theorem Accepts.decode {s : Shape} {r v w : Value} (h : Γ.Accepts s r v w) (hv : Γ.Fits s v)
    (style : Style) (rest : List UInt8) :
    Γ.decode style s r (Γ.encode .generic s v ++ rest) =
      ⟨.ok (Γ.encode .generic s v).length, w⟩ :=
  h style _ _ _ (.inr ⟨Nat.le_refl _, hv.grounded⟩) rest (Nat.lt_succ_self _)

/-- **Round trip.**  A value of which the wire loses nothing is appended to any buffer as the same
bytes, and decoding takes just these bytes, whatever follows them and whatever the receiver held,
and leaves the value there, its maps in the order of their keys.  Slots off the wire are as `Lands`
says; if there are none, all the receiver holds is the value, up to the order of maps. -/
theorem decode_encodeOnto {s : Shape} {v r : Value} (hΓ : Γ.DefaultsFit) (hv : Γ.Fits s v)
    (hx : Γ.Exact s v) (hr : Γ.Fits s r) :
    ∃ e w, Γ.Lands s r v w ∧ Γ.Settled s w ∧ (Γ.Whole s v → w.sorted = v.sorted) ∧
      (∀ style b, Γ.encodeOnto style s v b = b ++ e) ∧
      ∀ style rest, Γ.decode style s r (e ++ rest) = ⟨.ok e.length, w⟩ := by
  obtain ⟨w, haccept, hland⟩ := hv.arrives hΓ hr
  refine ⟨Γ.encode .generic s v, w, hland hx, (hland hx).settled hv hx, (hland hx).sorted_eq hv,
    fun style b => ?_, haccept.decode hv⟩
  rw [encodeOnto_eq, hv.encode_style style]

theorem fits_link {i : Int} {mark : Bool} {rest : Value} (hi : IntType.InRange ⟨true, .w32⟩ i)
    (h : chain.Fits (.option (.delegate (.ref "Chain"))) rest) :
    chain.Fits (.ref "Chain") (link i mark rest) := by
  refine .record rfl rfl fun p hp ho => ?_
  simp only [List.zip_cons_cons, List.zip_nil_right, List.mem_cons, List.not_mem_nil,
    or_false] at hp
  rcases hp with rfl | rfl | rfl
  · exact .cast rfl rfl hi
  · cases ho
  · exact h

theorem defaultsFit_chain : chain.DefaultsFit :=
  defaultsFit_of_forall (List.forall_mem_singleton.2 (fits_link (by decide) .absent))

theorem exact_link {i : Int} {mark : Bool} {rest : Value} (hi : IntType.InRange ⟨true, .w16⟩ i)
    (h : chain.Exact (.option (.delegate (.ref "Chain"))) rest) :
    chain.Exact (.ref "Chain") (link i mark rest) := by
  have hi' : IntType.InRange ⟨true, .w32⟩ i := by
    have hlow : -32768 ≤ i := hi.1
    have hhigh : i ≤ 32767 := hi.2
    exact ⟨show -2147483648 ≤ i by omega, show i ≤ 2147483647 by omega⟩
  refine .of_parts (by simp) (by simp) (by simp) fun s' v' hp => ?_
  unfold link at hp
  cases hp with
  | slot hf hmem ho =>
    cases hf
    simp only [List.zip_cons_cons, List.zip_nil_right, List.mem_cons, List.not_mem_nil,
      or_false, Prod.mk.injEq] at hmem
    rcases hmem with ⟨rfl, rfl⟩ | ⟨rfl, rfl⟩ | ⟨rfl, rfl⟩
    · refine .of_parts (fun t w d heq => ?_) (by simp) (by simp) fun _ _ hp => by cases hp
      cases heq
      simp [Scalar.convert, Wire.scalar, IntType.wrap_of_inRange hi, IntType.wrap_of_inRange hi']
    · cases ho
    · exact h

/-- Of two numbers and their marks, the numbers come back.  The first mark is then the one of the
receiver, and the second, in a link that is read afresh, is that of the blank link. -/
theorem decode_encodeOnto_chain :
    chain.Fits (.ref "Chain") (link 300 true (.present (link (-2) false .absent))) ∧
    chain.Exact (.ref "Chain") (link 300 true (.present (link (-2) false .absent))) ∧
    chain.Fits (.ref "Chain") (link 0 false .absent) ∧
    (∀ b, chain.encodeOnto .generic (.ref "Chain")
      (link 300 true (.present (link (-2) false .absent))) b = b ++ [216, 4, 1, 3, 0]) ∧
    ∀ rest, chain.decode .generic (.ref "Chain") (link 0 false .absent)
        ([216, 4, 1, 3, 0] ++ rest) =
      ⟨.ok 5, link 300 false (.present (link (-2) true .absent))⟩ := by
  have hv : chain.Fits (.ref "Chain") (link 300 true (.present (link (-2) false .absent))) :=
    fits_link (by decide) (.present (.delegate (fits_link (by decide) .absent)))
  have hr : chain.Fits (.ref "Chain") (link 0 false .absent) := fits_link (by decide) .absent
  have hx : chain.Exact (.ref "Chain") (link 300 true (.present (link (-2) false .absent))) := by
    refine exact_link (by decide) (.of_parts (by simp) (by simp) (by simp) fun _ _ hp => ?_)
    cases hp with
    | present =>
      refine .of_parts (by simp) (by simp) (by simp) fun _ _ hp => ?_
      cases hp with
      | delegate =>
        exact exact_link (by decide) <| .of_parts (by simp) (by simp) (by simp) fun _ _ hp => by
          cases hp
  obtain ⟨e, w, -, -, -, hencode, hdecode⟩ := decode_encodeOnto defaultsFit_chain hv hx hr
  obtain rfl : [216, 4, 1, 3, 0] = e := by
    have he := hencode .generic []
    rwa [show chain.encodeOnto .generic (.ref "Chain")
      (link 300 true (.present (link (-2) false .absent))) [] = [216, 4, 1, 3, 0] by cbv] at he
  obtain rfl : link 300 false (.present (link (-2) true .absent)) = w := by
    have hw := hdecode .generic []
    rw [show chain.decode .generic (.ref "Chain") (link 0 false .absent) ([216, 4, 1, 3, 0] ++ []) =
      ⟨.ok 5, link 300 false (.present (link (-2) true .absent))⟩ by cbv] at hw
    exact congrArg Outcome.receiver hw
  exact ⟨hv, hx, hr, hencode .generic, hdecode .generic⟩

/-- **Truncation.**  If what was written for a value is cut off anywhere, decoding fails for the end
of the input and for no other reason. -/
theorem decode_cut {s : Shape} {v r : Value} {p : List UInt8} (hΓ : Γ.DefaultsFit)
    (hv : Γ.Fits s v) (hr : Γ.Fits s r) (style style' : Style) (hp : p <+: Γ.encode style s v)
    (hne : p ≠ Γ.encode style s v) :
    (Γ.decode style' s r p).result = .error .truncated := by
  obtain ⟨w, haccept, -⟩ := hv.arrives hΓ hr
  have hfull := haccept.decode hv style' []
  rw [hv.encode_style style] at hp hne
  rw [List.append_nil] at hfull
  rcases h : Γ.decode style' s r p with ⟨e | n, u⟩
  · -- any other fault would stay for the whole encoding, which is accepted
    by_contra he
    obtain ⟨x, hx⟩ := hp
    have := decode_append_of_fault (fun hf => he (congrArg _ hf)) h x
    rw [hx, hfull] at this
    cases this
  · -- a success would be that of the whole encoding, and use bytes that are not there
    have hn := decode_within h
    have htake : (Γ.encode .generic s v).take n = p.take n := by
      obtain ⟨x, hx⟩ := hp
      rw [← hx, List.take_append_of_le_length hn]
    have hfull' := decode_of_take_eq h htake
    rw [hfull] at hfull'
    cases hfull'
    exact absurd (hp.eq_of_length_le hn) hne

/-- A number that does not fit in the 16 bits of the wire is not written exactly, but what is
written of it cannot be cut off either. -/
theorem decode_cut_chain :
    chain.Fits (.ref "Chain") (link 70000 true .absent) ∧
    chain.encode .generic (.ref "Chain") (link 70000 true .absent) = [224, 69, 0] ∧
    (chain.decode .expanded (.ref "Chain") (link 0 false .absent) [224, 69]).result =
      .error .truncated := by
  have hv : chain.Fits (.ref "Chain") (link 70000 true .absent) := fits_link (by decide) .absent
  have hr : chain.Fits (.ref "Chain") (link 0 false .absent) := fits_link (by decide) .absent
  have hencode : chain.encode .generic (.ref "Chain") (link 70000 true .absent) = [224, 69, 0] := by
    cbv
  refine ⟨hv, hencode, decode_cut defaultsFit_chain hv hr .generic .expanded ?_ ?_⟩
  · rw [hencode]
    exact List.prefix_append [224, 69] [0]
  · rw [hencode]
    decide

end Schema

end Marshal
