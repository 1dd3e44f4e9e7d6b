import Marshal.Layout
import Marshal.Code.Reading
import Marshal.Proofs.Agreement
import Marshal.Proofs.Shortest

/-!
# The check of a length

Where each item of a sequence or each entry of a map has a byte, the code that reads it refuses a
length that exceeds the number of bytes left.  Whether that is so is read off the field tree
(`Field.takesBytes`), and the tree is right about it: what it says is what the layout says
(`Field.takesBytes_shape`), and then every value is written with a byte at least
(`Schema.Fits.encode_ne_nil`) and read with one (`Shape.uses_decode`).

So a length that is refused announces more items than can be read.  `Shape.decodeChecking` leaves
out any of the checks, and accepts the same inputs (`Shape.decode_agrees_checking`).  Nor does a
sequence or a map hold more items, after a success or after a fault, than there were bytes behind
its length (`Decoder.count_of_refill_ok`, `Decoder.count_of_refill_error`).
-/

namespace Marshal

/-! ### Values with a byte -/

/-- A datum of the type of a wire kind is written with a byte at least. -/
theorem Wire.write_ne_nil {w : Wire} {d : Datum} (h : w.scalar.Has d) : w.write d ≠ [] := by
  intro hnil
  have hread := reads_write ((w.write d).length + 1) h []
  rw [List.append_nil] at hread
  have := w.uses_read (hread (Nat.lt_succ_self _))
  simp [hnil] at this

/-- What stands behind a length is written with a byte at least, that of the length. -/
theorem Varint.write_append_ne_nil (n : Nat) (bs : List UInt8) : Varint.write n ++ bs ≠ [] :=
  List.append_ne_nil_of_left_ne_nil (List.ne_nil_of_length_pos (length_write_pos n)) bs

/-- A value of a shape that takes bytes is written with a byte at least. -/
theorem Schema.Fits.encode_ne_nil {Γ : Schema} {s : Shape} {v : Value} (h : Γ.Fits s v)
    (hs : s.takesBytes = true) : Γ.encode .expanded s v ≠ [] := by
  induction h with
  | @scalar s d h => exact Wire.write_ne_nil (s.scalar_wire.symm ▸ h)
  | cast ha hw h => exact Wire.write_ne_nil (Scalar.has_convert ha hw h)
  | converted hc h => exact Wire.write_ne_nil (hc _ h)
  | delegate _ _ | array _ _ _ | record _ _ _ _ | empty _ | held _ _ _ _ _ => cases hs
  | staged _ ih => exact ih hs
  | absent | present _ _ => exact List.cons_ne_nil _ _
  | seq _ _ _ =>
    rw [encode, Shape.encode]
    split_ifs
    · exact Varint.write_append_ne_nil _ _
    · exact Varint.write_append_ne_nil _ _
  | map _ _ _ _ _ _ => exact Varint.write_append_ne_nil _ _

/-! ### What the tree says -/

/-- The shape is a sequence or a map whose length is checked. -/
def Shape.checksLength : Shape → Bool
  | seq s => s.takesBytes
  | map _ key value => key.takesBytes || value.takesBytes
  | _ => false

/-- The statements first read a length and check it. -/
def Code.checksLength : Code → Bool
  | block (seq (readLength x) (seq (checkLength y) _)) => decide (x = y)
  | _ => false

namespace Field

variable {vocabulary : Vocabulary} {f : Field} {s : Shape}

/-- The layout of a leaf with a wire kind is that of a scalar or a converted value, and a leaf
without one delegates. -/
theorem shape_leaf {info : NodeInfo} {t : TypeExpr} {wire : Option Wire}
    (h : (leaf info t wire).shape? vocabulary = some s) :
    (encodedWire info.modifiers wire).isSome = true ∧
        ((∃ a cast, s = .scalar a cast) ∨ ∃ c w, s = .converted c w) ∨
      encodedWire info.modifiers wire = none ∧ ∃ s', s = .delegate s' := by
  rw [encodedWire]
  cases wire with
  | some w =>
    cases h
    exact .inl ⟨by simp, .inl ⟨_, _, rfl⟩⟩
  | none =>
    cases hc : info.modifiers.cast with
    | none =>
      simp only [shape?, hc, Option.map_eq_some_iff] at h
      obtain ⟨s', -, rfl⟩ := h
      exact .inr ⟨rfl, s', rfl⟩
    | some w =>
      simp only [shape?, hc] at h
      split at h <;> cases h
      exact .inl ⟨rfl, .inr ⟨_, w, rfl⟩⟩

/-- A field tree and its layout agree on which values take bytes. -/
theorem takesBytes_shape (h : f.shape? vocabulary = some s) : s.takesBytes = f.takesBytes := by
  induction f generalizing s with
  | leaf info t wire =>
    rw [takesBytes]
    rcases shape_leaf h with ⟨hw, ⟨a, cast, rfl⟩ | ⟨c, w, rfl⟩⟩ | ⟨hw, s', rfl⟩
    · exact hw.symm
    · exact hw.symm
    · rw [hw]
      rfl
  | array _ _ _ _ _ =>
    simp only [shape?] at h
    split at h <;> cases h
    rfl
  | map _ _ _ _ _ _ _ =>
    simp only [shape?] at h
    split at h <;> cases h
    rfl
  | sequence _ _ _ _ _ | optional _ _ _ _ _ =>
    obtain ⟨s', -, rfl⟩ := Option.map_eq_some_iff.1 h
    rfl
  | synonym _ _ _ _ ih =>
    obtain ⟨s', hs', rfl⟩ := Option.map_eq_some_iff.1 h
    rw [Shape.takesBytes]
    exact ih hs'
  | member _ _ _ _ ih => exact ih h

/-- A length that is checked in the code of a field is checked in its layout. -/
theorem checksLength_shape {p : Place} (h : f.shape? vocabulary = some s)
    (hc : (f.decodeCode p).checksLength = true) : s.checksLength = true := by
  induction f generalizing s p with
  | leaf info t wire =>
    simp only [decodeCode] at hc
    split at hc <;> cases hc
  | array _ _ _ _ _ | optional _ _ _ _ _ | synonym _ _ _ _ _ => cases hc
  | sequence _ _ _ inner _ =>
    obtain ⟨s', hs', rfl⟩ := Option.map_eq_some_iff.1 h
    refine (takesBytes_shape hs').trans ?_
    cases hb : inner.takesBytes with
    | true => rfl
    | false =>
      simp only [decodeCode, lengthCheck, hb, Bool.false_eq_true, ↓reduceIte] at hc
      split_ifs at hc <;> cases hc
  | map _ _ _ key value _ _ =>
    simp only [shape?] at h
    split at h <;> cases h
    rename_i hk hv
    rw [Shape.checksLength, takesBytes_shape hk, takesBytes_shape hv]
    cases hb : key.takesBytes || value.takesBytes with
    | true => rfl
    | false =>
      simp only [decodeCode, lengthCheck, hb, Bool.false_eq_true, ↓reduceIte] at hc
      cases hc
  | member _ _ _ _ ih => exact ih h hc

end Field

/-! ### Decoding with some of the checks -/

/-- The decoder of a shape that makes only some of the checks of lengths: `checks` says for which
sequences and maps. -/
def Shape.decodeChecking (Γ : Schema) (named : String → Decoder) (checks : Shape → Bool) :
    Style → Shape → Decoder
  | _, scalar s cast => .ofReader (s.read cast)
  | _, converted c w => .ofReader (w.read.map fun d => .datum (c.ofWire d))
  | _, delegate s => s.decodeChecking Γ named checks .generic
  | _, ref name => named name
  | style, staged s => .ofReader ((s.decodeChecking Γ named checks style).fresh (Γ.blank s))
  | style, option s =>
    .ofReader (readOption ((s.decodeChecking Γ named checks style).fresh (Γ.blank s)))
  | style, array _ s =>
    .inPlace Value.items? .items fun vs => vs.map fun _ => s.decodeChecking Γ named checks style
  | style, seq s =>
    if style = .expanded ∧ s.isRawByte then .ofReader (readBytes.map Value.ofBytes)
    else
      .refill (decide (style = .expanded) && s.takesBytes && checks (seq s))
        ((s.decodeChecking Γ named checks style).fresh (Γ.blank s)) .items
  | style, map keys key value =>
    .refill
      (decide (style = .expanded) && (key.takesBytes || value.takesBytes) &&
        checks (map keys key value))
      (((key.decodeChecking Γ named checks style).fresh (Γ.blank key)).andThen fun k =>
        ((value.decodeChecking Γ named checks style).fresh (Γ.blank value)).map fun v => (k, v))
      (fun es => .entries (Entries.ofList es keys.compare))

/-- Decodes a value in place, with only some of the checks of the lengths in its shape. -/
def Schema.decodeChecking (Γ : Schema) (checks : Shape → Bool) (style : Style) (s : Shape) :
    Decoder := fun v bs =>
  s.decodeChecking Γ (Γ.decodeNamed bs.length Γ.decls.length) checks style v bs

section Checking

variable {Γ : Schema} {named : String → Decoder} {L : Nat}

/-- With all checks the decoder is that of the shape. -/
theorem Shape.decodeChecking_all (style : Style) (s : Shape) :
    s.decodeChecking Γ named (fun _ => true) style = s.decode Γ named style := by
  induction s generalizing style with
  | scalar _ _ | converted _ _ | ref _ => rfl
  | delegate s ih => exact ih .generic
  | staged s ih | option s ih | array _ s ih => rw [decodeChecking, ih, decode]
  | seq s ih => rw [decodeChecking, ih, Bool.and_true, decode]
  | map _ key value ihk ihv => rw [decodeChecking, ihk, ihv, Bool.and_true, decode]

theorem Decoder.agrees_of_eq {style : Style} {d d' : Decoder} {v : Value}
    (heq : ∀ bs, d' v bs = d v bs) : Agrees style d d' v v where
  ok bs _ _ h := (heq bs).trans h
  error bs e w h := ⟨e, w, (heq bs).trans h, .inl rfl⟩

/-- A decoder and the one without some of its checks read the same values, and where one of them
fails so does the other. -/
theorem Shape.decode_agrees_checking (ht : ∀ name, (named name).Tracks L L (named name))
    (checks : Shape → Bool) (style : Style) (s : Shape) (v : Value) :
    Decoder.Agrees .generic (s.decode Γ named style) (s.decodeChecking Γ named checks style) v
      v := by
  have hle {b c : Bool} (h : (b && c) = true) : b = true := (Bool.and_eq_true_iff.1 h).1
  induction s generalizing style v with
  | scalar _ _ | converted _ _ | ref _ => exact Decoder.agrees_of_eq fun _ => rfl
  | delegate s ih => exact ih .generic v
  | staged s ih => exact Decoder.agrees_ofReader (ih style _).fresh v v
  | option s ih =>
    refine Decoder.agrees_ofReader ((Reader.agrees_refl _).andThen fun presence => ?_) v v
    split_ifs
    · exact Reader.agrees_refl _
    · exact (ih style _).fresh.map _
  | array size s ih =>
    cases v with
    | items vs => exact Decoder.agrees_items (List.forall₂_same.2 fun v _ => ih style v)
    | _ => exact Decoder.agrees_of_eq fun _ => rfl
  | seq s ih =>
    rw [decode, decodeChecking]
    split_ifs
    · exact Decoder.agrees_of_eq fun _ => rfl
    · exact Decoder.agrees_refill _ hle Style.noConfusion (ih style _).fresh
        ((decode_tracks ht style s).fresh _)
        (fun hb => (uses_decode Γ named style (Bool.and_eq_true_iff.1 hb).2).fresh _) v v
  | map keys key value ihk ihv =>
    refine Decoder.agrees_refill _ hle Style.noConfusion
      ((ihk style _).fresh.andThen fun k => (ihv style _).fresh.map _)
      (((decode_tracks ht style key).fresh _).andThen fun k =>
        ((decode_tracks ht style value).fresh _).map _) (fun hb => ?_) v v
    exact uses_entry Γ named style (Bool.and_eq_true_iff.1 hb).2

end Checking

/-! ### How much is held -/

/-- The number of items of a sequence or of entries of a map. -/
def Value.itemCount : Value → Nat
  | items vs => vs.length
  | entries es => es.length
  | _ => 0

namespace Reader

variable {α : Type} {r : Reader α} {count used : Nat} {bs : List UInt8} {got as : Array α}

theorem size_collect_ok {k : Nat} (h : r.collect count bs used got = (.ok k, as)) :
    as.size = got.size + count := by
  induction count generalizing bs used got with
  | zero => cases h; rfl
  | succ count ih =>
    obtain ⟨a, n, -, h⟩ := collect_succ_eq_ok.1 h
    rw [ih h, Array.size_push]
    omega

/-- The items that were read before a fault have used a byte each. -/
theorem Uses.size_collect_error {L : Nat} {e : Fault} (hu : r.Uses 1) (ht : r.Tracks L L r)
    (h : r.collect count bs used got = (.error e, as)) : as.size ≤ got.size + bs.length := by
  induction count generalizing bs used got with
  | zero => cases h
  | succ count ih =>
    rcases collect_succ_eq_error.1 h with ⟨-, rfl⟩ | ⟨a, n, ha, h⟩
    · exact Nat.le_add_right _ _
    · have hn := hu ha
      have hle := ht.within ha
      have := ih h
      rw [Array.size_push, List.length_drop] at this
      omega

end Reader

namespace Decoder

variable {α : Type} {checked : Bool} {item : Reader α} {build : List α → Value} {v w : Value}
  {bs : List UInt8} {L : Nat}

/-- What is filled up holds no more than one item for each byte behind the length. -/
theorem count_of_refill_ok {n : Nat} (hb : ∀ as, (build as).itemCount ≤ as.length)
    (hu : item.Uses 1) (h : refill checked item build v bs = ⟨.ok n, w⟩) :
    ∃ count k, Varint.read bs = .ok (count, k) ∧ k + w.itemCount ≤ n := by
  obtain ⟨count, k, as, hk, -, has, rfl⟩ := refill_eq_ok h
  refine ⟨count, k, hk, ?_⟩
  have hsize := Reader.size_collect_ok has
  have hused := hu.collect has
  have hcount := hb as.toList
  rw [Array.length_toList] at hcount
  simp only [List.size_toArray, List.length_nil] at hsize
  omega

/-- Also if it was filled up to a fault only. -/
theorem count_of_refill_error {e : Fault} (hb : ∀ as, (build as).itemCount ≤ as.length)
    (hu : item.Uses 1) (ht : item.Tracks L L item)
    (h : refill checked item build v bs = ⟨.error e, w⟩) :
    w = v ∨ ∃ count k, Varint.read bs = .ok (count, k) ∧ k + w.itemCount ≤ bs.length := by
  rcases refill_inv h with ⟨-, -, -, rfl⟩ | ⟨-, -, -, -, -, -, rfl⟩ |
    ⟨count, k, as, hk, -, has, rfl⟩
  · exact .inl rfl
  · exact .inl rfl
  · refine .inr ⟨count, k, hk, ?_⟩
    have hle := (Varint.tracks_read L L).within hk
    have hsize := hu.size_collect_error ht has
    have hcount := hb as.toList
    rw [Array.length_toList] at hcount
    simp only [List.size_toArray, List.length_nil, List.length_drop] at hsize
    omega

end Decoder

namespace Schema

variable {Γ : Schema} {s : Shape}

theorem uses_decode (style : Style) (hs : s.takesBytes = true) : (Γ.decode style s).Uses 1 :=
  fun _ _ _ _ h => Shape.uses_decode Γ _ style hs h

theorem decode_agrees_checking (Γ : Schema) (checks : Shape → Bool) (style : Style) (s : Shape)
    (r : Value) (L : Nat) :
    Decoder.Agrees .generic (s.decode Γ (Γ.decodeNamed L Γ.decls.length) style)
      (s.decodeChecking Γ (Γ.decodeNamed L Γ.decls.length) checks style) r r :=
  Shape.decode_agrees_checking (Γ.decodeNamed_tracks L L Γ.decls.length) checks style s r

/-- A sequence or a map with a checked length holds no more items than there are bytes behind its
length. -/
theorem count_of_decode (hs : s.checksLength = true) (r : Value) (bs : List UInt8) :
    (∀ n w, Γ.decode .expanded s r bs = ⟨.ok n, w⟩ →
      ∃ count k, Varint.read bs = .ok (count, k) ∧ k + w.itemCount ≤ n) ∧
    ∀ e w, Γ.decode .expanded s r bs = ⟨.error e, w⟩ →
      w = r ∨ ∃ count k, Varint.read bs = .ok (count, k) ∧ k + w.itemCount ≤ bs.length := by
  have htracks (s : Shape) :=
    (Γ.decode_tracks .expanded s bs.length bs.length).fresh (Γ.blank s)
  cases s with
  | seq s =>
    have hu := (Shape.uses_decode Γ (Γ.decodeNamed bs.length Γ.decls.length) .expanded hs).fresh
      (Γ.blank s)
    rw [decode, Shape.decode_seq]
    exact ⟨fun n w => Decoder.count_of_refill_ok (fun _ => Nat.le_refl _) hu,
      fun e w => Decoder.count_of_refill_error (fun _ => Nat.le_refl _) hu (htracks s)⟩
  | map keys key value =>
    have hu := Shape.uses_entry Γ (Γ.decodeNamed bs.length Γ.decls.length) .expanded hs
    rw [decode, Shape.decode]
    exact ⟨fun n w => Decoder.count_of_refill_ok (Entries.length_ofList_le _) hu,
      fun e w => Decoder.count_of_refill_error (Entries.length_ofList_le _) hu
        ((htracks key).andThen fun _ => (htracks value).map _)⟩
  | _ => cases hs

end Schema

/-- **The check of a length is sound.**  If the field tree says that every value takes bytes, then
encoding appends a byte at least and decoding uses one at least.  A field is decoded from the same
inputs, to the same values and with the same counts, whichever of the checks in it are made.  And a
sequence or a map whose length is checked never holds more items than there are bytes behind its
length: than were used there if it was decoded, and than were there if that failed on the way. -/
theorem Field.lengthCheck_sound {vocabulary : Vocabulary} {f : Field} {s : Shape} (Γ : Schema)
    (hs : f.shape? vocabulary = some s) :
    (f.takesBytes = true →
      (∀ v b, Γ.Fits s v → b.length < (Γ.encodeOnto .expanded s v b).length) ∧
      ∀ r bs n w, Γ.decode .expanded s r bs = ⟨.ok n, w⟩ → 1 ≤ n) ∧
    (Γ.decodeChecking (fun _ => true) .expanded s = Γ.decode .expanded s ∧
      ∀ checks r bs n w, Γ.decode .expanded s r bs = ⟨.ok n, w⟩ ↔
        Γ.decodeChecking checks .expanded s r bs = ⟨.ok n, w⟩) ∧
    (∀ p, (f.decodeCode p).checksLength = true → ∀ r bs,
      (∀ n w, Γ.decode .expanded s r bs = ⟨.ok n, w⟩ →
        ∃ count k, Varint.read bs = .ok (count, k) ∧ k + w.itemCount ≤ n) ∧
      ∀ e w, Γ.decode .expanded s r bs = ⟨.error e, w⟩ →
        w = r ∨ ∃ count k, Varint.read bs = .ok (count, k) ∧ k + w.itemCount ≤ bs.length) := by
  refine ⟨fun hf => ?_, ⟨?_, fun checks r bs n w => ?_⟩, fun p hp r bs => ?_⟩
  · have htakes : s.takesBytes = true := (takesBytes_shape hs).trans hf
    refine ⟨fun v b hv => ?_, fun r bs n w h => Schema.uses_decode .expanded htakes h⟩
    rw [Schema.encodeOnto_eq, List.length_append]
    exact Nat.lt_add_of_pos_right (List.length_pos_iff.2 (hv.encode_ne_nil htakes))
  · funext r bs
    rw [Schema.decodeChecking, Shape.decodeChecking_all, Schema.decode]
  · exact (Γ.decode_agrees_checking checks .expanded s r bs.length).ok_iff
  · exact Schema.count_of_decode (checksLength_shape hs hp) r bs

/-- Marks without any content. -/
def blankMarks : Schema := { decls := [("Mark", .record [])] }

/-- A field of type `BTreeMap<Mark, Option<Mark>>`: its keys have no bytes, its values do. -/
def markIndex : Field :=
  .map {} (.apply "BTreeMap" [.named "Mark", .apply "Option" [.named "Mark"]]) 0
    (.leaf {} (.named "Mark") none)
    (.optional {} (.apply "Option" [.named "Mark"]) 1 (.leaf {} (.named "Mark") none))

/-- The shape of the field. -/
def markIndexShape : Shape :=
  .map .sorted (.delegate (.ref "Mark")) (.option (.delegate (.ref "Mark")))

/-- A map of one mark to one mark. -/
def oneMark : Value := .entries [(.record [], .present (.record []))]

/-- Two entries with the same key make a map of one, with and without the check, and five entries
are refused with the check and cannot be read without it. -/
theorem Field.lengthCheck_sound_markIndex :
    markIndex.shape? {} = some markIndexShape ∧ blankMarks.Fits markIndexShape oneMark ∧
    (∀ b, b.length < (blankMarks.encodeOnto .expanded markIndexShape oneMark b).length) ∧
    blankMarks.decodeChecking (fun _ => false) .expanded markIndexShape (.entries []) [2, 0, 1] =
      ⟨.ok 3, oneMark⟩ ∧
    (∃ count k, Varint.read [2, 0, 1] = .ok (count, k) ∧ k + oneMark.itemCount ≤ 3) ∧
    blankMarks.decode .expanded markIndexShape oneMark [5, 0, 1] = ⟨.error .truncated, oneMark⟩ ∧
    ∀ n w, blankMarks.decodeChecking (fun _ => false) .expanded markIndexShape oneMark [5, 0, 1] ≠
      ⟨.ok n, w⟩ := by
  have hs : markIndex.shape? {} = some markIndexShape := rfl
  have hfind : blankMarks.find? "Mark" = some (.record []) := rfl
  have hmark : blankMarks.Fits (.ref "Mark") (.record []) :=
    .record hfind rfl (List.forall_mem_nil _)
  have hv : blankMarks.Fits markIndexShape oneMark := by
    refine .map (by decide) (List.pairwise_singleton _ _) ?_ ?_
    · intro e he
      cases List.mem_singleton.1 he
      exact .delegate hmark
    · intro e he
      cases List.mem_singleton.1 he
      exact .present (.delegate hmark)
  have hok : blankMarks.decode .expanded markIndexShape (.entries []) [2, 0, 1] =
      ⟨.ok 3, oneMark⟩ := by cbv
  have herror : blankMarks.decode .expanded markIndexShape oneMark [5, 0, 1] =
      ⟨.error .truncated, oneMark⟩ := by cbv
  obtain ⟨hbytes, ⟨-, hchecks⟩, hcount⟩ := lengthCheck_sound blankMarks hs
  refine ⟨hs, hv, fun b => (hbytes rfl).1 _ b hv, (hchecks _ _ _ _ _).1 hok,
    (hcount (.root []) (by decide) _ _).1 _ _ hok, herror, fun n w h => ?_⟩
  cases herror.symm.trans ((hchecks _ _ _ n w).2 h)

end Marshal
