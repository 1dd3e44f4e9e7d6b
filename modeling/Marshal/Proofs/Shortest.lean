import Marshal.Proofs.Failure
import Marshal.Proofs.Encoding
import Marshal.Proofs.Occurrence

/-!
# No shorter input

An input may be longer than need be: varints may have digits that say nothing, the byte of a
presence or of a boolean may be any, and the keys of a map may come back.  It is never shorter than
what is written for the value that is read from it, as long as nothing is cast on the way
(`Schema.length_encode_le_used`).

`Reader.Covers` says that a reader uses at least as many bytes as the value it reads needs, and
`Decoder.Covers` says so of a decoder, whatever its receiver held.  Each combinator keeps it.  A map
that is filled up with entries holds no more than these (`Entries.sum_ofList_le`).
-/

namespace Marshal

/-- A reader uses at least as many bytes as what it reads is large. -/
def Reader.Covers {α : Type} (size : α → Nat) (r : Reader α) : Prop :=
  ∀ ⦃bs a n⦄, r bs = .ok (a, n) → size a ≤ n

/-- A decoder uses at least as many bytes as what it leaves in the receiver is large. -/
def Decoder.Covers (size : Value → Nat) (d : Decoder) : Prop :=
  ∀ ⦃v bs n w⦄, d v bs = ⟨.ok n, w⟩ → size w ≤ n

/-! ### Readers -/

namespace Reader

variable {α β : Type} {r : Reader α}

theorem Covers.map {f : α → β} {size : β → Nat} (h : r.Covers fun a => size (f a)) :
    (r.map f).Covers size := by
  intro bs b n hb
  obtain ⟨a, ha, rfl⟩ := map_eq_ok.1 hb
  exact h ha

theorem Covers.andThen {next : α → Reader β} {size : α → Nat} {total : β → Nat}
    (h : r.Covers size) (hnext : ∀ a bs b m, next a bs = .ok (b, m) → total b ≤ size a + m) :
    (r.andThen next).Covers total := by
  intro bs b k hb
  obtain ⟨a, n, m, ha, hm, rfl⟩ := andThen_eq_ok.1 hb
  exact (hnext a _ b m hm).trans (Nat.add_le_add_right (h ha) m)

/-- What is collected is as many values as were asked for, and they are covered together. -/
theorem Covers.collect {size : α → Nat} (h : r.Covers size) {count used k : Nat}
    {bs : List UInt8} {got as : Array α} (hk : r.collect count bs used got = (.ok k, as)) :
    ∃ cs, as.toList = got.toList ++ cs ∧ cs.length = count ∧ used + (cs.map size).sum ≤ k := by
  induction count generalizing bs used got with
  | zero =>
    cases hk
    exact ⟨[], by simp, rfl, by simp⟩
  | succ count ih =>
    obtain ⟨a, n, ha, hk⟩ := collect_succ_eq_ok.1 hk
    obtain ⟨cs, has, hcs, hle⟩ := ih hk
    refine ⟨a :: cs, by simp [has], by simp [hcs], ?_⟩
    have := h ha
    rw [List.map_cons, List.sum_cons]
    omega

end Reader

theorem covers_readBytes : readBytes.Covers fun bs => (writeBytes bs).length := by
  refine Reader.Covers.andThen (fun _ _ _ h => Varint.length_write_le_of_read h) ?_
  intro count bs cs m h
  obtain ⟨hl, rfl, rfl⟩ := Reader.take_eq_ok.1 h
  simp [writeBytes, Nat.min_eq_left hl]

theorem accept_eq_ok {t : IntType} {v : Int} {d : Datum} (h : accept t v = .ok d) : d = .int v := by
  unfold accept at h
  split_ifs at h
  cases h
  rfl

/-- A datum is read from at least as many bytes as are written for it. -/
theorem Wire.covers_read (w : Wire) : w.read.Covers fun d => (w.write d).length := by
  cases w with
  | fixed t =>
    refine Reader.Covers.map fun bs cs n h => ?_
    obtain ⟨-, -, rfl⟩ := Reader.take_eq_ok.1 h
    simp [write, LittleEndian.length_bytes]
  | var t =>
    cases hs : t.signed with
    | true =>
      rw [read_signed hs]
      intro bs d n h
      obtain ⟨u, hu, hd⟩ := Reader.refine_eq_ok.1 h
      rw [accept_eq_ok hd]
      -- the code that is written is the code that was read, also if it had more digits
      simp only [write, hs, if_true, Int64.ofInt_toInt, Zigzag.encode_decode]
      exact Varint.length_write_le_of_read hu
    | false =>
      rw [read_unsigned hs]
      intro bs d n h
      obtain ⟨u, hu, hd⟩ := Reader.refine_eq_ok.1 h
      rw [accept_eq_ok hd]
      simp only [write, hs, Int.toNat_natCast]
      exact Varint.length_write_le_of_read hu
  | float f =>
    refine Reader.Covers.map fun bs cs n h => ?_
    obtain ⟨-, -, rfl⟩ := Reader.take_eq_ok.1 h
    simp [write, LittleEndian.length_bytes]
  | bool =>
    refine Reader.Covers.map fun bs b n h => ?_
    exact Reader.uses_byte h
  | text =>
    intro bs d n h
    obtain ⟨cs, hcs, hd⟩ := Reader.refine_eq_ok.1 h
    cases hs : textOfBytes cs with
    | error e =>
      rw [hs] at hd
      cases hd
    | ok s =>
      rw [hs] at hd
      cases hd
      simp only [write, textBytes_of_textOfBytes hs]
      exact covers_readBytes hcs

/-! ### Decoders -/

namespace Decoder

variable {d : Decoder} {size : Value → Nat}

theorem covers_ofReader {r : Reader Value} (h : r.Covers size) : (ofReader r).Covers size :=
  fun _ _ _ _ hn => h (ofReader_eq_ok.1 hn)

theorem Covers.fresh (h : d.Covers size) (b : Value) : (d.fresh b).Covers size :=
  fun _ _ _ hn => h (fresh_eq_ok.1 hn)

/-- A receiver that is refilled is covered if it takes no more than its count and its items do. -/
theorem covers_refill {α : Type} {checked : Bool} {item : Reader α} {build : List α → Value}
    {part : α → Nat} (h : item.Covers part)
    (hsize : ∀ as, size (build as) ≤ (Varint.write as.length).length + (as.map part).sum) :
    (refill checked item build).Covers size := by
  intro v bs k w hw
  obtain ⟨count, n, as, hn, -, hk, rfl⟩ := refill_eq_ok hw
  obtain ⟨cs, has, hcs, hle⟩ := h.collect hk
  have hcount := Varint.length_write_le_of_read hn
  have hbuild := hsize cs
  rw [hcs] at hbuild
  rw [show as.toList = cs by simpa using has]
  omega

/-- A receiver is covered if its parts are, and if one without such parts takes no bytes. -/
theorem covers_inPlace {parts? : Value → Option (List Value)} {build : List Value → Value}
    {decoders : List Value → List Decoder}
    (hparts : ∀ vs bs k ws, decodeSlots (decoders vs) vs bs = (.ok k, ws) → size (build ws) ≤ k)
    (hnone : ∀ v, parts? v = none → size v = 0) :
    (inPlace parts? build decoders).Covers size := by
  intro v bs n w hn
  rcases inPlace_inv hn with ⟨vs, ws, -, hws, rfl⟩ | ⟨hv, hn⟩
  · exact hparts vs bs n ws hws
  · cases hn
    exact (hnone v hv).le

end Decoder

/-- Slots that are decoded in place are covered together. -/
theorem decodeSlots_covers {α : Type} {f : α → Decoder} {size : α → Value → Nat} {as : List α}
    (h : ∀ a ∈ as, (f a).Covers (size a)) {vs ws : List Value} {bs : List UInt8} {k : Nat}
    (hk : decodeSlots (as.map f) vs bs = (.ok k, ws)) :
    ((as.zip ws).map fun p => size p.1 p.2).sum ≤ k := by
  -- a receiver with fewer slots ends the decoding, and what it has in excess is not counted
  induction as generalizing vs ws bs k with
  | nil => simp
  | cons a as ih =>
    cases vs with
    | nil =>
      cases hk
      simp
    | cons v vs =>
      obtain ⟨n, m, w, ws', hw, hws, rfl, rfl⟩ := decodeSlots_cons_eq_ok.1 hk
      have hhead := h a List.mem_cons_self hw
      have htail := ih (fun a ha => h a (List.mem_cons_of_mem _ ha)) hws
      rw [List.zip_cons_cons, List.map_cons, List.sum_cons]
      exact Nat.add_le_add hhead htail

/-! ### Maps -/

namespace Entries

variable (cmp : Value → Value → Ordering) (p q : Value → Nat)

/-- The size of an entry is that of its key and its value, which may come from two entries. -/
theorem sum_insert_le (k v : Value) (m : Entries) :
    ((insert cmp k v m).map fun e => p e.1 + q e.2).sum ≤
      p k + q v + (m.map fun e => p e.1 + q e.2).sum := by
  induction m with
  | nil => simp [insert]
  | cons f m ih =>
    obtain ⟨l, w⟩ := f
    rw [insert]
    split
    · simp
    · simp only [List.map_cons, List.sum_cons]
      omega
    · simp only [List.map_cons, List.sum_cons]
      omega

/-- A map that was filled up with entries is no larger than these. -/
theorem sum_ofList_le (es : Entries) :
    ((ofList es cmp).map fun e => p e.1 + q e.2).sum ≤ (es.map fun e => p e.1 + q e.2).sum := by
  induction es using List.reverseRecOn with
  | nil => simp [ofList]
  | append_singleton es e ih =>
    obtain ⟨k, v⟩ := e
    have hlast := sum_insert_le cmp p q k v (ofList es cmp)
    rw [ofList_append_singleton]
    simp only [List.map_append, List.map_cons, List.map_nil, List.sum_append, List.sum_cons,
      List.sum_nil]
    omega

theorem length_ofList_le (es : Entries) : (ofList es cmp).length ≤ es.length := by
  simpa using sum_ofList_le cmp (fun _ => 1) (fun _ => 0) es

end Entries

/-! ### Shapes and declared types -/

/-- A value of the shape is neither cast nor converted at the top. -/
def Shape.uncast : Shape → Prop
  | scalar _ cast => cast = none
  | converted _ _ => False
  | _ => True

namespace Schema

/-- How many bytes are written for a value. -/
def size (Γ : Schema) (style : Style) (s : Shape) (v : Value) : Nat := (Γ.encode style s v).length

variable {Γ : Schema} {style : Style} {s : Shape}

theorem size_present {v : Value} :
    Γ.size style (.option s) (.present v) = 1 + Γ.size style s v := by
  rw [size, encode_present, List.length_cons, Nat.add_comm]
  rfl

theorem size_array {k : Nat} {vs : List Value} :
    Γ.size style (.array k s) (.items vs) = (vs.map (Γ.size style s)).sum := by
  rw [size, encode_array, List.length_flatMap]
  rfl

theorem size_bytes (h : style = .expanded ∧ s.isRawByte = true) {vs : List Value} :
    Γ.size style (.seq s) (.items vs) = (Varint.write vs.length).length + vs.length := by
  rw [size, encode, Shape.encode, if_pos h, writeBytes]
  simp

theorem size_seq (h : ¬(style = .expanded ∧ s.isRawByte = true)) {vs : List Value} :
    Γ.size style (.seq s) (.items vs) =
      (Varint.write vs.length).length + (vs.map (Γ.size style s)).sum := by
  rw [size, encode_seq h, List.length_append, List.length_flatMap]
  rfl

theorem size_map {keys : Keys} {key value : Shape} {es : Entries} :
    Γ.size style (.map keys key value) (.entries es) = (Varint.write es.length).length +
      (es.map fun e => Γ.size style key e.1 + Γ.size style value e.2).sum := by
  rw [size, encode_map, List.length_append, List.length_flatMap]
  simp only [List.length_append]
  rfl

theorem size_record {name : String} {slots : List Slot} {vs : List Value}
    (hf : Γ.find? name = some (.record slots)) :
    Γ.size style (.ref name) (.record vs) = ((slots.zip vs).map fun p =>
      if p.1.offWire then 0 else Γ.size .expanded p.1.shape p.2).sum := by
  rw [size, encode_record style hf, List.length_flatMap]
  simp only [apply_ite List.length, List.length_nil]
  rfl

theorem size_held {name : String} {u : Members} {tag : Nat} {m : Member} {v : Value}
    (hf : Γ.find? name = some (.holder u)) (hm : u.member? tag = some m) :
    Γ.size style (.ref name) (.present (.member tag v)) = 1 + Γ.size .expanded m.shape v := by
  rw [size, encode_held style hf hm, List.length_cons, Nat.add_comm]
  rfl

end Schema

section Shapes

variable {Γ : Schema} {named : String → Decoder}
  (h : ∀ name, Γ.Throughout Shape.uncast (.ref name) →
    (named name).Covers (Γ.size .expanded (.ref name)))
include h

/-- Decoders of declared types that cover what they read make the decoder of a shape do so. -/
theorem Shape.decode_covers (style style' : Style) {s : Shape}
    (hs : Γ.Throughout Shape.uncast s) : (s.decode Γ named style).Covers (Γ.size style' s) := by
  induction s generalizing style style' with
  | scalar s cast =>
    obtain rfl : cast = none := hs.self
    exact Decoder.covers_ofReader (Reader.Covers.map (Wire.covers_read s.wire))
  | converted c w => exact hs.self.elim
  | delegate s ih => exact ih .generic .generic (hs.child .delegate)
  | ref name => exact h name hs
  | staged s ih => exact Decoder.covers_ofReader ((ih style style' (hs.child .staged)).fresh _)
  | option s ih =>
    refine Decoder.covers_ofReader (Reader.Covers.andThen (fun _ _ _ hn => Reader.uses_byte hn) ?_)
    intro presence bs v m hv
    split_ifs at hv
    · cases hv
      exact Nat.le_refl 1
    · obtain ⟨a, ha, rfl⟩ := Reader.map_eq_ok.1 hv
      rw [Schema.size_present]
      exact Nat.add_le_add_left ((ih style style' (hs.child .option)).fresh _ ha) 1
  | array k s ih =>
    refine Decoder.covers_inPlace (fun vs bs n ws hws => ?_) fun v hv => ?_
    · have hle := decodeSlots_covers (fun _ _ => ih style style' (hs.child .array)) hws
      have hl := length_decodeSlots hws
      rw [Schema.size_array]
      calc (ws.map (Γ.size style' s)).sum
          = (((vs.zip ws).map Prod.snd).map (Γ.size style' s)).sum := by
            rw [List.map_snd_zip hl.le]
        _ ≤ n := by rwa [List.map_map]
    · cases v with
      | items vs => cases hv
      | _ => rfl
  | seq s ih =>
    rw [Shape.decode_seq]
    by_cases hraw : style' = .expanded ∧ s.isRawByte = true
    · have hbyte := Shape.isRawByte_iff.1 hraw.2
      have huses : (s.decode Γ named style).Uses 1 :=
        Shape.uses_decode Γ named style (by rw [hbyte]; rfl)
      have hitem : Reader.Covers (fun _ => 1) ((s.decode Γ named style).fresh (Γ.blank s)) :=
        huses.fresh _
      exact Decoder.covers_refill hitem fun vs => by simp [Schema.size_bytes hraw]
    · exact Decoder.covers_refill ((ih style style' (hs.child .seq)).fresh _) fun vs =>
        (Schema.size_seq hraw).le
  | map keys key value ihk ihv =>
    have hentry : Reader.Covers (fun e => Γ.size style' key e.1 + Γ.size style' value e.2)
        (((key.decode Γ named style).fresh (Γ.blank key)).andThen fun k =>
          ((value.decode Γ named style).fresh (Γ.blank value)).map fun v => (k, v)) := by
      refine Reader.Covers.andThen ((ihk style style' (hs.child .key)).fresh _) ?_
      intro k bs e m he
      obtain ⟨v, hv, rfl⟩ := Reader.map_eq_ok.1 he
      exact Nat.add_le_add_left ((ihv style style' (hs.child .value)).fresh _ hv) _
    refine Decoder.covers_refill hentry fun es => ?_
    rw [Schema.size_map]
    exact Nat.add_le_add (Varint.length_write_mono (Entries.length_ofList_le _ es))
      (Entries.sum_ofList_le _ _ _ es)

theorem Slot.decode_covers {slot : Slot} (hs : Γ.Throughout Shape.uncast slot.shape) :
    (slot.decode Γ named).Covers fun v =>
      if slot.offWire then 0 else Γ.size .expanded slot.shape v := by
  unfold Slot.decode
  split_ifs
  · exact fun _ _ _ _ _ => Nat.zero_le _
  · exact Shape.decode_covers h .expanded .expanded hs

theorem Members.readMember_covers {name : String} {u : Members} {tag : UInt8}
    (hf : Γ.find? name = some (.holder u)) (hs : Γ.Throughout Shape.uncast (.ref name)) :
    ∀ bs v n, u.readMember Γ named tag bs = .ok (v, n) →
      Γ.size .expanded (.ref name) (.present v) ≤ 1 + n := by
  intro bs v n hv
  cases hm : u.member? tag.toNat with
  | none =>
    simp only [readMember, hm] at hv
    cases hv
  | some m =>
    simp only [readMember, hm] at hv
    obtain ⟨a, ha, rfl⟩ := Reader.map_eq_ok.1 hv
    rw [Schema.size_held hf hm]
    have hmember := Shape.decode_covers h .expanded .expanded (hs.member hf hm)
    exact Nat.add_le_add_left (hmember.fresh _ ha) 1

theorem Decl.decode_covers {name : String} {d : Decl} (hf : Γ.find? name = some d)
    (hs : Γ.Throughout Shape.uncast (.ref name)) :
    (d.decode Γ named).Covers (Γ.size .expanded (.ref name)) := by
  cases d with
  | record slots =>
    refine Decoder.covers_inPlace (fun vs bs n ws hws => ?_) fun v hv => ?_
    · rw [Schema.size_record hf]
      exact decodeSlots_covers (fun slot hslot => Slot.decode_covers h (hs.slot hf hslot)) hws
    · rw [Schema.size, Schema.encode, Shape.encode, Schema.encodeNamed, hf]
      cases v with
      | record vs => cases hv
      | _ => rfl
  | holder u =>
    refine Decoder.covers_ofReader (Reader.Covers.andThen (fun _ _ _ hn => Reader.uses_byte hn) ?_)
    intro tag bs v m hv
    split_ifs at hv
    · cases hv
      rw [Schema.size, Schema.encode_empty .expanded hf]
      exact Nat.le_refl 1
    · obtain ⟨a, ha, rfl⟩ := Reader.map_eq_ok.1 hv
      exact Members.readMember_covers h hf hs bs a m ha

end Shapes

/-! ### References -/

namespace Schema

variable {Γ : Schema}

/-- The decoder of a name covers what it reads, however many references it may follow. -/
theorem decodeNamed_covers {name : String} (limit budget : Nat)
    (hs : Γ.Throughout Shape.uncast (.ref name)) :
    (Γ.decodeNamed limit budget name).Covers (Γ.size .expanded (.ref name)) := by
  -- a reference uses up the budget; once a byte is used the limit is lower and the budget is full
  induction limit using Nat.strong_induction_on generalizing budget name with
  | _ limit ih =>
    induction budget generalizing name with
    | zero =>
      intro v bs n w hw
      by_cases hlt : bs.length < limit
      · rw [decodeNamed_of_lt hlt] at hw
        exact ih _ hlt _ hs hw
      · rw [decodeNamed_of_fail (Nat.not_lt.1 hlt) (.inl rfl)] at hw
        cases hw
    | succ budget ihb =>
      intro v bs n w hw
      by_cases hlt : bs.length < limit
      · rw [decodeNamed_of_lt hlt] at hw
        exact ih _ hlt _ hs hw
      · cases hf : Γ.find? name with
        | none =>
          rw [decodeNamed_of_fail (Nat.not_lt.1 hlt) (.inr hf)] at hw
          cases hw
        | some d =>
          rw [decodeNamed_of_find (Nat.not_lt.1 hlt) hf] at hw
          exact Decl.decode_covers (fun _ hs => ihb hs) hf hs hw

theorem decode_covers {style style' : Style} {s : Shape} (hs : Γ.Throughout Shape.uncast s) :
    (Γ.decode style s).Covers (Γ.size style' s) :=
  fun _ _ _ _ hw =>
    Shape.decode_covers (fun _ hs => decodeNamed_covers _ _ hs) style style' hs hw

/-! ### The order of maps -/

theorem sum_size_sorted {style : Style} {s : Shape} {vs : List Value}
    (h : ∀ v ∈ vs, Γ.size style s v.sorted = Γ.size style s v) :
    ((vs.map Value.sorted).map (Γ.size style s)).sum = (vs.map (Γ.size style s)).sum := by
  rw [List.map_map]
  exact congrArg List.sum (List.map_congr_left h)

/-- The size of a declared type does not depend on the order of maps if that of its parts does
not. -/
theorem size_ref_sorted {name : String} {v : Value} (style : Style)
    (h : ∀ x, x.height < v.height → ∀ s, Γ.size .expanded s x.sorted = Γ.size .expanded s x) :
    Γ.size style (.ref name) v.sorted = Γ.size style (.ref name) v := by
  cases hf : Γ.find? name with
  | none => simp [size, encode, Shape.encode, encodeNamed, hf]
  | some d =>
    cases d with
    | record slots =>
      cases v with
      | record vs =>
        rw [Value.sorted_record, size_record hf, size_record hf, List.zip_map_right, List.map_map]
        refine congrArg List.sum (List.map_congr_left fun p hp => ?_)
        have hx := h p.2 (Nat.lt_succ_of_le (Value.height_le_of_mem (List.of_mem_zip hp).2))
        simp only [Function.comp_apply, Prod.map_fst, Prod.map_snd, id_eq, hx]
      | _ => simp [size, encode, Shape.encode, encodeNamed, hf, Value.sorted, Decl.encode]
    | holder u =>
      cases v with
      | present x =>
        cases x with
        | member tag y =>
          cases hm : u.member? tag with
          | none =>
            simp [size, encode, Shape.encode, encodeNamed, hf, Value.sorted, Decl.encode,
              Members.writeMember, hm]
          | some m =>
            have hy : y.height < (Value.present (.member tag y)).height := by
              simp only [Value.height]
              omega
            rw [Value.sorted, Value.sorted, size_held hf hm, size_held hf hm, h y hy]
        | _ =>
          simp [size, encode, Shape.encode, encodeNamed, hf, Value.sorted, Decl.encode,
            Members.writeMember]
      | _ => simp [size, encode, Shape.encode, encodeNamed, hf, Value.sorted, Decl.encode]

/-- The order in which maps are visited has no effect on the size. -/
theorem size_sorted (style : Style) (s : Shape) (v : Value) :
    Γ.size style s v.sorted = Γ.size style s v := by
  induction hn : v.height using Nat.strong_induction_on generalizing style s v with
  | _ n ih =>
    subst hn
    -- the value stays the same under a delegate and a staged value, so the shape goes down inside
    induction s generalizing style with
    | scalar s cast => cases v <;> cases cast <;> rfl
    | converted c w => cases v <;> rfl
    | delegate s ihs => exact ihs .generic
    | staged s ihs => exact ihs style
    | ref name => exact size_ref_sorted style fun x hx s => ih _ hx .expanded s x rfl
    | option s _ =>
      cases v with
      | present v =>
        rw [Value.sorted, size_present, size_present, ih _ (Nat.lt_succ_self _) style s v rfl]
      | _ => rfl
    | array k s _ =>
      cases v with
      | items vs =>
        rw [Value.sorted_items, size_array, size_array]
        exact sum_size_sorted fun v hv =>
          ih _ (Nat.lt_succ_of_le (Value.height_le_of_mem hv)) style s v rfl
      | _ => rfl
    | seq s _ =>
      cases v with
      | items vs =>
        rw [Value.sorted_items]
        by_cases hraw : style = .expanded ∧ s.isRawByte = true
        · simp [size_bytes hraw]
        · rw [size_seq hraw, size_seq hraw, List.length_map, sum_size_sorted fun v hv =>
            ih _ (Nat.lt_succ_of_le (Value.height_le_of_mem hv)) style s v rfl]
      | _ => rfl
    | map keys key value _ _ =>
      cases v with
      | entries es =>
        have hperm (fs : Entries) : (Entries.inOrder Value.compare fs).Perm fs :=
          Entries.perm_inOrder fs
        rw [Value.sorted_entries, size_map, size_map, (hperm _).length_eq,
          List.length_map, ((hperm _).map _).sum_eq, List.map_map]
        refine congrArg _ (congrArg List.sum (List.map_congr_left fun e he => ?_))
        obtain ⟨hk, hv⟩ := Value.height_le_of_entry he
        exact congrArg₂ _ (ih _ (Nat.lt_succ_of_le hk) style key e.1 rfl)
          (ih _ (Nat.lt_succ_of_le hv) style value e.2 rfl)
      | _ => rfl

theorem length_encode_le_of_sorted {style : Style} {s : Shape} {v w : Value} {n : Nat}
    (h : Γ.size style s v ≤ n) (hw : w.sorted = v.sorted) : (Γ.encode style s w).length ≤ n :=
  calc Γ.size style s w
    _ = Γ.size style s v := by rw [← size_sorted style s w, hw, size_sorted style s v]
    _ ≤ n := h

/-- **No shorter input.**  What is written for a value takes no more bytes than were used to decode
it, afresh or in place, whatever order its maps are visited in. -/
theorem length_encode_le_used {s : Shape} (hs : Γ.Throughout Shape.uncast s)
    (style style' : Style) (bs : List UInt8) :
    (∀ v n, Γ.decodeFresh style s bs = .ok (v, n) →
      ∀ w, w.sorted = v.sorted → (Γ.encode style' s w).length ≤ n) ∧
    (∀ r v n, Γ.decode style s r bs = ⟨.ok n, v⟩ →
      ∀ w, w.sorted = v.sorted → (Γ.encode style' s w).length ≤ n) := by
  constructor
  · intro v n h w hw
    exact length_encode_le_of_sorted (decode_covers hs (Decoder.fresh_eq_ok.1 h)) hw
  · intro r v n h w hw
    exact length_encode_le_of_sorted (decode_covers hs h) hw

/-- Votes by number, some of them still open. -/
def ballot : Schema :=
  { decls := [("Ballot", .record [
    ⟨.name "votes", .map .hashed (.scalar .byte none) (.option (.scalar .bool none)), false,
      false⟩])] }

/-- Two votes in the order of their visit: number 5 is open, and number 7 is in favour. -/
def votes (inOrder : Bool) : Value :=
  let five := (.datum (.int 5), .absent)
  let seven := (.datum (.int 7), .present (.datum (.bool true)))
  .record [.entries (if inOrder then [five, seven] else [seven, five])]

theorem uncast_ballot : ballot.Throughout Shape.uncast (.ref "Ballot") := by
  refine throughout_of_every ?_ trivial
  simp only [Every, ballot, List.forall_mem_cons, Decl.Every]
  exact ⟨⟨⟨trivial, rfl, trivial, rfl⟩, List.forall_mem_nil _⟩, List.forall_mem_nil _⟩

/-- A count of two digits, a vote that is changed, and bytes for presence and choice that are
neither `0` nor `1`: of ten bytes six are left, also if the votes are visited in another order. -/
theorem length_encode_le_used_ballot :
    ballot.Throughout Shape.uncast (.ref "Ballot") ∧
    ballot.decodeFresh .generic (.ref "Ballot") [131, 0, 7, 9, 2, 5, 0, 7, 1, 1] =
      .ok (votes true, 10) ∧
    ballot.encode .generic (.ref "Ballot") (votes false) = [2, 7, 1, 1, 5, 0] ∧
    (ballot.encode .generic (.ref "Ballot") (votes false)).length ≤ 10 := by
  have hdecode : ballot.decodeFresh .generic (.ref "Ballot") [131, 0, 7, 9, 2, 5, 0, 7, 1, 1] =
      .ok (votes true, 10) := by
    cbv
  have hle := (length_encode_le_used uncast_ballot .generic .generic _).1 _ _ hdecode
  exact ⟨uncast_ballot, hdecode, by cbv, hle _ rfl⟩

end Schema

end Marshal
