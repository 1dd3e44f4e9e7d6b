import Marshal.Holder
import Marshal.Proofs.Typing
import Marshal.Proofs.Locality

/-!
# Decoding without a budget

The decoder counts the references it follows until it uses the next byte.  The equations here are
free of that count: a value is decoded as its parts are.

* Behind a byte the count starts afresh, so what an optional value, a sequence, a map or a holder
  contains is decoded as it is by itself (`Schema.decode_of_lt`).
* Before the first byte the references out of a shape with a value end within the budget, and any
  budget within which they end gives the same answer (`Schema.Fits.decode_of_grounded`).  That is
  the case of the slots of a record.
-/

namespace Marshal

/-! ### Decoders that are equal on short inputs -/

/-- Two readers answer alike on inputs of fewer than `m` bytes. -/
def Reader.EqBelow {α : Type} (m : Nat) (r r' : Reader α) : Prop :=
  ∀ ⦃bs⦄, bs.length < m → r bs = r' bs

/-- Two decoders answer alike on inputs of fewer than `m` bytes, whatever the receiver. -/
def Decoder.EqBelow (m : Nat) (d d' : Decoder) : Prop :=
  ∀ ⦃v bs⦄, bs.length < m → d v bs = d' v bs

namespace Reader

variable {α β : Type} {m : Nat}

theorem eqBelow_refl (r : Reader α) : r.EqBelow m r := fun _ _ => rfl

theorem EqBelow.map {r r' : Reader α} (h : r.EqBelow m r') (f : α → β) :
    (r.map f).EqBelow m (r'.map f) := by
  intro bs hbs
  simp only [Reader.map, h hbs]

theorem EqBelow.andThen {r r' : Reader α} {next next' : α → Reader β} (h : r.EqBelow m r')
    (hnext : ∀ a, (next a).EqBelow m (next' a)) : (r.andThen next).EqBelow m (r'.andThen next') := by
  intro bs hbs
  unfold Reader.andThen
  rw [h hbs]
  rcases r' bs with e | ⟨a, n⟩
  · rfl
  · simp only [hnext a (length_drop_lt hbs)]

/-- What follows a byte sees an input that is shorter. -/
theorem EqBelow.byte_andThen {next next' : UInt8 → Reader β}
    (hnext : ∀ b, (next b).EqBelow m (next' b)) :
    (Reader.byte.andThen next).EqBelow (m + 1) (Reader.byte.andThen next') := by
  intro bs hbs
  cases bs with
  | nil => rfl
  | cons b bs =>
    have htail : next b bs = next' b bs := hnext b (Nat.lt_of_succ_lt_succ hbs)
    simp only [Reader.andThen, Reader.byte, List.drop_one, List.tail_cons, htail]

theorem EqBelow.collect {r r' : Reader α} (h : r.EqBelow m r') (count used : Nat)
    {bs : List UInt8} (hbs : bs.length < m) (got : Array α) :
    r.collect count bs used got = r'.collect count bs used got := by
  induction count generalizing bs used got with
  | zero => rfl
  | succ count ih =>
    rw [Reader.collect, Reader.collect, h hbs]
    rcases r' bs with e | ⟨a, n⟩
    · rfl
    · exact ih (used + n) (length_drop_lt hbs) (got.push a)

end Reader

namespace Decoder

variable {m : Nat}

theorem EqBelow.mono {k : Nat} {d d' : Decoder} (h : d.EqBelow m d') (hk : k ≤ m) :
    d.EqBelow k d' :=
  fun _ _ hbs => h (hbs.trans_le hk)

theorem eqBelow_ofReader {r r' : Reader Value} (h : r.EqBelow m r') :
    (ofReader r).EqBelow m (ofReader r') := by
  intro v bs hbs
  simp only [ofReader, h hbs]

theorem EqBelow.fresh {d d' : Decoder} (h : d.EqBelow m d') (b : Value) :
    (d.fresh b).EqBelow m (d'.fresh b) := by
  intro bs hbs
  simp only [Decoder.fresh, h hbs]

/-- The items behind a count see an input that is shorter. -/
theorem eqBelow_refill {α : Type} (checked : Bool) {item item' : Reader α} (build : List α → Value)
    (h : item.EqBelow m item') :
    (refill checked item build).EqBelow (m + 1) (refill checked item' build) := by
  intro v bs hbs
  unfold refill
  rcases hn : Varint.read bs with e | ⟨count, n⟩
  · rfl
  · have hpos := Varint.uses_read hn
    have hle := (Varint.tracks_read 0 0).within hn
    have hdrop : (bs.drop n).length < m := by
      rw [List.length_drop]
      omega
    simp only [h.collect count.toNat n hdrop]

theorem decodeSlots_congr {ι : Type} {f f' : ι → Decoder} {xs : List ι} {vs : List Value}
    (h : ∀ x v, (x, v) ∈ xs.zip vs → ∀ bs, bs.length < m → f x v bs = f' x v bs)
    {bs : List UInt8} (hbs : bs.length < m) :
    decodeSlots (xs.map f) vs bs = decodeSlots (xs.map f') vs bs := by
  induction xs generalizing vs bs with
  | nil => rfl
  | cons x xs ih =>
    cases vs with
    | nil => rfl
    | cons v vs =>
      have htail n := ih (fun y u hyu => h y u (List.mem_cons_of_mem _ hyu))
        (Reader.length_drop_lt (n := n) hbs)
      simp only [List.map_cons, decodeSlots, h x v List.mem_cons_self bs hbs, htail]

/-- Parts that are decoded alike in their places are decoded alike together. -/
theorem inPlace_congr {ι : Type} {parts? : Value → Option (List Value)}
    {build : List Value → Value} {decoders decoders' : List Value → List Decoder}
    {f f' : ι → Decoder} (xs : List ι) {v : Value} {vs : List Value} (hv : parts? v = some vs)
    (hd : decoders vs = xs.map f) (hd' : decoders' vs = xs.map f')
    (h : ∀ x u, (x, u) ∈ xs.zip vs → ∀ bs, bs.length < m → f x u bs = f' x u bs)
    {bs : List UInt8} (hbs : bs.length < m) :
    inPlace parts? build decoders v bs = inPlace parts? build decoders' v bs := by
  simp only [inPlace, hv, hd, hd', decodeSlots_congr h hbs]

theorem EqBelow.items {d d' : Decoder} (h : d.EqBelow m d') :
    (inPlace Value.items? .items fun vs => vs.map fun _ => d).EqBelow m
      (inPlace Value.items? .items fun vs => vs.map fun _ => d') := by
  intro v bs hbs
  rcases hv : Value.items? v with _ | vs
  · rw [inPlace_of_none hv, inPlace_of_none hv]
  · exact inPlace_congr vs hv rfl rfl (fun _ u _ bs hbs => h hbs) hbs

end Decoder

/-! ### Shapes -/

section Shapes

variable {Γ : Schema} {named named' : String → Decoder} {m : Nat}

/-- The reader of an entry of a map, given those of its key and of its value. -/
def Reader.entry (key value : Reader Value) : Reader (Value × Value) :=
  key.andThen fun k => value.map fun v => (k, v)

theorem Reader.EqBelow.entry {key key' value value' : Reader Value} (hk : key.EqBelow m key')
    (hv : value.EqBelow m value') : (Reader.entry key value).EqBelow m (Reader.entry key' value') :=
  hk.andThen fun _ => hv.map _

variable (h : ∀ name, (named name).EqBelow m (named' name))
include h

/-- Decoders of declared types that are equal on short inputs make the decoders of a shape so. -/
theorem Shape.decode_eqBelow (style : Style) (s : Shape) :
    (s.decode Γ named style).EqBelow m (s.decode Γ named' style) := by
  induction s generalizing style with
  | scalar s cast => exact fun _ _ _ => rfl
  | converted c w => exact fun _ _ _ => rfl
  | delegate s ih => exact ih .generic
  | ref name => exact h name
  | staged s ih => exact Decoder.eqBelow_ofReader ((ih style).fresh _)
  | option s ih =>
    refine (Decoder.eqBelow_ofReader (Reader.EqBelow.byte_andThen fun b => ?_)).mono (Nat.le_succ m)
    split_ifs
    · exact Reader.eqBelow_refl _
    · exact ((ih style).fresh _).map _
  | array size s ih => exact (ih style).items
  | seq s ih =>
    rw [Shape.decode_seq, Shape.decode_seq]
    exact (Decoder.eqBelow_refill _ _ ((ih style).fresh _)).mono (Nat.le_succ m)
  | map keys key value ihk ihv =>
    exact (Decoder.eqBelow_refill _ _ (((ihk style).fresh _).entry ((ihv style).fresh _))).mono
      (Nat.le_succ m)

theorem Members.readMember_eqBelow (u : Members) (tag : UInt8) :
    (u.readMember Γ named tag).EqBelow m (u.readMember Γ named' tag) := by
  unfold Members.readMember
  split
  · exact Reader.eqBelow_refl _
  · exact ((Shape.decode_eqBelow h .expanded _).fresh _).map _

/-- A holder reads its tag first. -/
theorem Members.readHeld_eqBelow (u : Members) :
    (u.readHeld Γ named).EqBelow (m + 1) (u.readHeld Γ named') := by
  refine Reader.EqBelow.byte_andThen fun tag => ?_
  split_ifs
  · exact Reader.eqBelow_refl _
  · exact (Members.readMember_eqBelow h u tag).map _

end Shapes

namespace Schema

variable {Γ : Schema} {limit budget m : Nat} {style : Style} {s : Shape} {name : String}
  {r v : Value} {bs : List UInt8}

/-! ### Behind a byte -/

theorem decodeNamed_full (hbs : bs.length ≤ limit) :
    Γ.decodeNamed limit Γ.decls.length name v bs =
      Γ.decodeNamed bs.length Γ.decls.length name v bs := by
  rcases Nat.lt_or_eq_of_le hbs with hlt | rfl
  · exact decodeNamed_of_lt hlt
  · rfl

/-- With a full budget a shape is decoded as it is by itself. -/
theorem decode_of_le (hbs : bs.length ≤ limit) :
    s.decode Γ (Γ.decodeNamed limit Γ.decls.length) style v bs = Γ.decode style s v bs := by
  refine Shape.decode_eqBelow (m := bs.length + 1) (fun name u cs hcs => ?_) style s
    (Nat.lt_succ_self _)
  have hcs' := Nat.le_of_lt_succ hcs
  rw [decodeNamed_full (hcs'.trans hbs), decodeNamed_full hcs']

/-- Behind a byte a shape is decoded as it is by itself. -/
theorem decode_of_lt (hbs : bs.length < limit) :
    s.decode Γ (Γ.decodeNamed limit budget) style v bs = Γ.decode style s v bs := by
  refine Shape.decode_eqBelow (m := bs.length + 1) (fun name u cs hcs => ?_) style s
    (Nat.lt_succ_self _)
  have hcs' := Nat.le_of_lt_succ hcs
  rw [decodeNamed_of_lt (hcs'.trans_lt hbs), decodeNamed_full hcs']

/-! ### Before the first byte -/

/-- The decoder of a shape asks for a declared type before a byte is used only if the shape refers
to it directly. -/
theorem Fits.decode_congr {named named' : String → Decoder} (hΓ : Γ.DefaultsFit)
    (hlow : ∀ name, (named name).EqBelow m (named' name)) (hr : Γ.Fits s r)
    (hdirect : ∀ name ∈ s.direct, ∀ v bs, Γ.Fits (.ref name) v → bs.length < m + 1 →
      named name v bs = named' name v bs) (style : Style) (hbs : bs.length < m + 1) :
    s.decode Γ named style r bs = s.decode Γ named' style r bs := by
  induction s generalizing style r bs with
  | scalar s cast => rfl
  | converted c w => rfl
  | delegate s ih =>
    cases hr with
    | delegate hr => exact ih hr hdirect .generic hbs
  | ref name => exact hdirect name List.mem_cons_self r bs hr hbs
  | staged s ih =>
    cases hr with
    | staged hr =>
      simp only [Shape.decode, Decoder.ofReader, Decoder.fresh, ih (hr.blank hΓ) hdirect style hbs]
  | option s ih =>
    refine Decoder.eqBelow_ofReader (Reader.EqBelow.byte_andThen fun b => ?_) hbs
    split_ifs
    · exact Reader.eqBelow_refl _
    · exact ((Shape.decode_eqBelow hlow style s).fresh _).map _
  | array size s ih =>
    cases hr with
    | @array _ _ vs hl hvs =>
      refine Decoder.inPlace_congr vs rfl rfl rfl (fun _ u hu cs hcs => ?_) hbs
      have hmem := (List.of_mem_zip hu).2
      have hsize : size ≠ 0 := hl ▸ (List.length_pos_of_mem hmem).ne'
      exact ih (hvs u hmem) (fun name hname => hdirect name (by simpa [Shape.direct, hsize]))
        style hcs
  | seq s ih =>
    rw [Shape.decode_seq, Shape.decode_seq]
    exact Decoder.eqBelow_refill _ _ ((Shape.decode_eqBelow hlow style s).fresh _) hbs
  | map keys key value ihk ihv =>
    exact Decoder.eqBelow_refill _ _ (((Shape.decode_eqBelow hlow style key).fresh _).entry
      ((Shape.decode_eqBelow hlow style value).fresh _)) hbs

/-- The slots of a record with a value are decoded alike by decoders that agree on what the slots
refer to directly. -/
theorem Fits.decode_record_congr {named named' : String → Decoder} {slots : List Slot}
    {vs : List Value} (hΓ : Γ.DefaultsFit) (hlow : ∀ name, (named name).EqBelow m (named' name))
    (hvs : ∀ p ∈ slots.zip vs, p.1.offWire = false → Γ.Fits p.1.shape p.2)
    (hdirect : ∀ slot ∈ slots, slot.offWire = false → ∀ name ∈ slot.shape.direct, ∀ v bs,
      Γ.Fits (.ref name) v → bs.length < m + 1 → named name v bs = named' name v bs)
    (hbs : bs.length < m + 1) :
    (Decl.record slots).decode Γ named (.record vs) bs =
      (Decl.record slots).decode Γ named' (.record vs) bs := by
  rw [Decl.decode, Decl.decode]
  refine Decoder.inPlace_congr slots rfl rfl rfl (fun slot v hv cs hcs => ?_) hbs
  cases ho : slot.offWire with
  | true => simp only [Slot.decode, ho, ↓reduceIte]
  | false =>
    simp only [Slot.decode, ho, Bool.false_eq_true, ↓reduceIte]
    exact Fits.decode_congr hΓ hlow (hvs (slot, v) hv ho)
      (hdirect slot (List.of_mem_zip hv).1 ho) .expanded hcs

/-- Two budgets within which the references out of a name end give the same answer. -/
theorem Fits.decodeNamed_congr {k l : Nat} (hΓ : Γ.DefaultsFit) (hk : Γ.EndsWithin k name)
    (hl : Γ.EndsWithin l name) (hv : Γ.Fits (.ref name) v) (hbs : bs.length < limit + 1) :
    Γ.decodeNamed limit k name v bs = Γ.decodeNamed limit l name v bs := by
  rcases Nat.lt_or_eq_of_le (Nat.le_of_lt_succ hbs) with hlt | heq
  · rw [decodeNamed_of_lt hlt, decodeNamed_of_lt hlt]
  induction k generalizing l name v bs with
  | zero => cases hk
  | succ k ih =>
    cases l with
    | zero => cases hl
    | succ l =>
      have hlow name : (Γ.decodeNamed limit k name).EqBelow limit (Γ.decodeNamed limit l name) :=
        fun _ _ h => by rw [decodeNamed_of_lt h, decodeNamed_of_lt h]
      cases hv with
      | @record _ slots vs hf hlen hvs =>
        rw [decodeNamed_of_find heq.ge hf, decodeNamed_of_find heq.ge hf]
        refine Fits.decode_record_congr hΓ hlow hvs (fun slot hslot ho n hn u cs hu hcs => ?_) hbs
        rcases Nat.lt_or_eq_of_le (Nat.le_of_lt_succ hcs) with hlt | heq
        · exact hlow n hlt
        · exact ih (Grounded.slot hk hf hslot ho n hn) (Grounded.slot hl hf hslot ho n hn) hu hcs heq
      | empty hf | held hf _ _ _ =>
        rw [decodeNamed_of_find heq.ge hf, decodeNamed_of_find heq.ge hf]
        exact Decoder.eqBelow_ofReader (Members.readHeld_eqBelow hlow _) hbs

/-- A budget within which the references out of a shape end decodes its values as they are decoded
by themselves. -/
theorem Fits.decode_of_grounded (hΓ : Γ.DefaultsFit) (hr : Γ.Fits s r)
    (hg : Γ.Grounded budget s) (hbs : bs.length ≤ limit) :
    s.decode Γ (Γ.decodeNamed limit budget) style r bs = Γ.decode style s r bs := by
  rw [← decode_of_le hbs]
  refine hr.decode_congr (m := limit) hΓ (fun name v cs hcs => ?_)
    (fun name hname v cs hv hcs => ?_) style (Nat.lt_succ_of_le hbs)
  · rw [decodeNamed_of_lt hcs, decodeNamed_of_lt hcs]
  · exact Fits.decodeNamed_congr hΓ (hg name hname) (hr.grounded name hname) hv hcs

/-! ### A value from its parts -/

variable (Γ) in
/-- The decoder of a slot by itself. -/
def decodeSlot (slot : Slot) : Decoder :=
  if slot.offWire then .keep else Γ.decode .expanded slot.shape

variable (Γ) in
/-- Reads an entry of a map afresh, the key first. -/
def decodeEntry (style : Style) (key value : Shape) : Reader (Value × Value) :=
  Reader.entry (Γ.decodeFresh style key) (Γ.decodeFresh style value)

variable (Γ) in
/-- Reads what a holder holds. -/
def readHeld (u : Members) : Reader Value :=
  Reader.byte.andThen fun tag => if tag = 0 then .pure .absent else (Γ.readMember u tag).map .present

/-- Behind a byte a value is read afresh as it is by itself. -/
theorem decodeFresh_eqBelow (Γ : Schema) (limit budget : Nat) (style : Style) (s : Shape) :
    ((s.decode Γ (Γ.decodeNamed limit budget) style).fresh (Γ.blank s)).EqBelow limit
      (Γ.decodeFresh style s) :=
  Decoder.EqBelow.fresh (fun _ _ hbs => decode_of_lt hbs) _

theorem decode_staged (style : Style) (s : Shape) :
    Γ.decode style (.staged s) = .ofReader (Γ.decodeFresh style s) := rfl

theorem decode_option (style : Style) (s : Shape) :
    Γ.decode style (.option s) = .ofReader (readOption (Γ.decodeFresh style s)) := by
  funext r bs
  refine Decoder.eqBelow_ofReader (Reader.EqBelow.byte_andThen fun b => ?_) (Nat.lt_succ_self _)
  split_ifs
  · exact Reader.eqBelow_refl _
  · exact (Γ.decodeFresh_eqBelow bs.length _ style s).map _

theorem decode_array (style : Style) (size : Nat) (s : Shape) :
    Γ.decode style (.array size s) =
      .inPlace Value.items? .items fun vs => vs.map fun _ => Γ.decode style s := by
  funext r bs
  exact Decoder.EqBelow.items (fun _ _ hcs => decode_of_le (Nat.le_of_lt_succ hcs))
    (Nat.lt_succ_self _)

theorem decode_seq (style : Style) (s : Shape) :
    Γ.decode style (.seq s) =
      .refill (decide (style = .expanded) && s.takesBytes) (Γ.decodeFresh style s) .items := by
  funext r bs
  rw [decode, Shape.decode_seq]
  exact Decoder.eqBelow_refill _ _ (Γ.decodeFresh_eqBelow bs.length _ style s) (Nat.lt_succ_self _)

theorem decode_map (style : Style) (keys : Keys) (key value : Shape) :
    Γ.decode style (.map keys key value) =
      .refill (decide (style = .expanded) && (key.takesBytes || value.takesBytes))
        (Γ.decodeEntry style key value) (fun es => .entries (Entries.ofList es keys.compare)) := by
  funext r bs
  have hentry := (Γ.decodeFresh_eqBelow bs.length Γ.decls.length style key).entry
    (Γ.decodeFresh_eqBelow bs.length Γ.decls.length style value)
  rw [decode, Shape.decode]
  exact Decoder.eqBelow_refill _ _ hentry (Nat.lt_succ_self _)

/-- Behind a byte a member is read as it is by itself. -/
theorem readMember_of_lt {u : Members} {tag : UInt8} (hbs : bs.length < limit) :
    u.readMember Γ (Γ.decodeNamed limit budget) tag bs = Γ.readMember u tag bs := by
  refine Members.readMember_eqBelow (m := bs.length + 1) (fun name v cs hcs => ?_) u tag
    (Nat.lt_succ_self _)
  have hcs' := Nat.le_of_lt_succ hcs
  rw [decodeNamed_of_lt (hcs'.trans_lt hbs), decodeNamed_full hcs']

theorem readMember_of_none {u : Members} {tag : UInt8} (hm : u.member? tag.toNat = none) :
    Γ.readMember u tag bs = .error (.unknownTag tag) := by
  simp only [readMember, Members.readMember, hm]

theorem readMember_of_some {u : Members} {tag : UInt8} {m : Member}
    (hm : u.member? tag.toNat = some m) :
    Γ.readMember u tag bs = (Γ.decodeFresh .expanded m.shape).map (.member tag.toNat) bs := by
  simp only [readMember, Members.readMember, hm]
  rfl

theorem length_decls_of_find {d : Decl} (hf : Γ.find? name = some d) :
    ∃ n, Γ.decls.length = n + 1 := by
  cases hd : Γ.decls with
  | nil => simp [find?, hd] at hf
  | cons d ds => exact ⟨ds.length, rfl⟩

theorem decode_holder (style : Style) {u : Members} (hf : Γ.find? name = some (.holder u)) :
    Γ.decode style (.ref name) = .ofReader (Γ.readHeld u) := by
  funext r bs
  obtain ⟨n, hn⟩ := length_decls_of_find hf
  rw [decode, Shape.decode, hn, decodeNamed_of_find (Nat.le_refl _) hf]
  refine Decoder.eqBelow_ofReader (Reader.EqBelow.byte_andThen fun tag => ?_) (Nat.lt_succ_self _)
  split_ifs
  · exact Reader.eqBelow_refl _
  · exact Reader.EqBelow.map (fun cs hcs => readMember_of_lt hcs) _

section Holder

variable {u : Members} {h w : Value} {tag : UInt8} {m : Member} {rest : List UInt8} {e : Fault}

theorem tag_ne_zero_of_member (hm : u.member? tag.toNat = some m) : tag ≠ 0 := by
  rintro rfl
  cases hm

variable (hf : Γ.find? name = some (.holder u))
include hf

theorem decode_holder_nil : Γ.decode style (.ref name) h [] = ⟨.error .truncated, h⟩ := by
  rw [decode_holder style hf]
  rfl

theorem decode_holder_zero : Γ.decode style (.ref name) h (0 :: rest) = ⟨.ok 1, Holder.empty⟩ := by
  rw [decode_holder style hf]
  rfl

theorem decode_holder_unknown (ht : tag ≠ 0) (hm : u.member? tag.toNat = none) :
    Γ.decode style (.ref name) h (tag :: rest) = ⟨.error (.unknownTag tag), h⟩ := by
  rw [decode_holder style hf]
  refine Decoder.ofReader_eq_error.2 ⟨?_, rfl⟩
  simp [readHeld, Reader.andThen, Reader.byte, Reader.map, ht, readMember_of_none hm]

theorem decode_holder_error (hm : u.member? tag.toNat = some m)
    (he : Γ.decodeFresh .expanded m.shape rest = .error e) :
    Γ.decode style (.ref name) h (tag :: rest) = ⟨.error e, h⟩ := by
  rw [decode_holder style hf]
  refine Decoder.ofReader_eq_error.2 ⟨?_, rfl⟩
  simp [readHeld, Reader.andThen, Reader.byte, Reader.map, tag_ne_zero_of_member hm,
    readMember_of_some hm, he]

theorem decode_holder_ok {v : Value} {n : Nat} (hm : u.member? tag.toNat = some m)
    (hv : Γ.decodeFresh .expanded m.shape rest = .ok (v, n)) :
    Γ.decode style (.ref name) h (tag :: rest) =
      ⟨.ok (1 + n), Holder.new (.member tag.toNat v)⟩ := by
  rw [decode_holder style hf]
  refine Decoder.ofReader_eq_ok.2 ?_
  simp [readHeld, Reader.andThen, Reader.byte, Reader.map, tag_ne_zero_of_member hm,
    readMember_of_some hm, hv, Holder.new]

theorem decode_holder_of_error (he : Γ.decode style (.ref name) h bs = ⟨.error e, w⟩) : w = h := by
  rw [decode_holder style hf] at he
  exact (Decoder.ofReader_eq_error.1 he).2.symm

end Holder

/-- A record with values in its slots on the wire is decoded slot by slot, each as it is by
itself. -/
theorem decode_record (hΓ : Γ.DefaultsFit) (style : Style) {slots : List Slot} {rs : List Value}
    (hf : Γ.find? name = some (.record slots)) (hl : slots.length = rs.length)
    (hrs : ∀ p ∈ slots.zip rs, p.1.offWire = false → Γ.Fits p.1.shape p.2) (bs : List UInt8) :
    Γ.decode style (.ref name) (.record rs) bs =
      Decoder.inPlace Value.slots? .record (fun _ => slots.map Γ.decodeSlot) (.record rs) bs := by
  obtain ⟨n, hn⟩ := length_decls_of_find hf
  have hname : Γ.EndsWithin (n + 1) name :=
    hn ▸ (Fits.record hf hl hrs).grounded name List.mem_cons_self
  rw [decode, Shape.decode, hn, decodeNamed_of_find (Nat.le_refl _) hf, Decl.decode]
  refine Decoder.inPlace_congr slots rfl rfl rfl (fun slot v hv cs hcs => ?_) (Nat.lt_succ_self _)
  cases ho : slot.offWire with
  | true => simp only [Slot.decode, decodeSlot, ho, ↓reduceIte]
  | false =>
    simp only [Slot.decode, decodeSlot, ho, Bool.false_eq_true, ↓reduceIte]
    exact (hrs (slot, v) hv ho).decode_of_grounded hΓ
      (Grounded.slot hname hf (List.of_mem_zip hv).1 ho) (Nat.le_of_lt_succ hcs)

end Schema

end Marshal
