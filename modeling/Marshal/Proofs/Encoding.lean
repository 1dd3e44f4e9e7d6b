import Marshal.Schema.Encode
import Marshal.Proofs.Typing

/-!
# What is written

`Schema.encodeOnto` appends `Schema.encode` to the buffer (`Schema.encodeOnto_eq`), so what is
written never depends on what was written before.

The encoder counts how deep references are nested, and the height of the value bounds that.  The
equations of `Schema.encode` below are free of that count: what is written for a value is put
together from what is written for its parts.  Expanded and generic code write the same bytes
(`Schema.Fits.encode_style`); only the bytes of a sequence of bytes are put together in two ways.
-/

namespace Marshal

/-! ### Appending -/

/-- Appending part by part appends all parts. -/
theorem foldl_append {α : Type} {f : List UInt8 → α → List UInt8} {g : α → List UInt8}
    {as : List α} (h : ∀ a ∈ as, ∀ b, f b a = b ++ g a) (b : List UInt8) :
    as.foldl f b = b ++ as.flatMap g := by
  induction as generalizing b with
  | nil => simp
  | cons a as ih =>
    rw [List.foldl_cons, h a List.mem_cons_self, ih fun c hc => h c (List.mem_cons_of_mem a hc),
      List.flatMap_cons, List.append_assoc]

section Onto

variable {onto : String → Value → List UInt8 → List UInt8} {named : String → Value → List UInt8}
  (h : ∀ name v b, onto name v b = b ++ named name v)
include h

theorem Shape.encodeOnto_eq (style : Style) (s : Shape) (v : Value) (b : List UInt8) :
    s.encodeOnto onto style v b = b ++ s.encode named style v := by
  induction s generalizing style v b with
  | scalar s cast => cases cast <;> cases v <;> simp [encodeOnto, encode]
  | converted c w => cases v <;> simp [encodeOnto, encode]
  | delegate s ih => exact ih .generic v b
  | ref name => exact h name v b
  | staged s ih => exact ih style v b
  | option s ih => cases v <;> simp [encodeOnto, encode, ih]
  | array size s ih =>
    cases v with
    | items vs => exact foldl_append (fun v _ b => ih style v b) b
    | _ => simp [encodeOnto, encode]
  | seq s ih =>
    cases v with
    | items vs =>
      rw [encodeOnto, encode]
      split_ifs
      · rfl
      · rw [foldl_append (fun v _ b => ih style v b), List.append_assoc]
    | _ => simp [encodeOnto, encode]
  | map keys key value ihk ihv =>
    cases v with
    | entries es =>
      rw [encodeOnto, encode, ← List.append_assoc]
      refine foldl_append (fun (k, v) _ b => ?_) _
      dsimp only
      rw [ihk, ihv, List.append_assoc]
    | _ => simp [encodeOnto, encode]

theorem encodeSlotsOnto_eq (slots : List Slot) (vs : List Value) (b : List UInt8) :
    encodeSlotsOnto onto slots vs b = b ++ encodeSlots named slots vs := by
  induction slots generalizing vs b with
  | nil => simp [encodeSlotsOnto, encodeSlots]
  | cons slot slots ih =>
    cases vs with
    | nil => simp [encodeSlotsOnto, encodeSlots]
    | cons v vs =>
      rw [encodeSlotsOnto, encodeSlots, ih, Shape.encodeOnto_eq h]
      split_ifs <;> simp

theorem Members.writeMemberOnto_eq (u : Members) (v : Value) (b : List UInt8) :
    u.writeMemberOnto onto v b = b ++ u.writeMember named v := by
  cases v with
  | member tag v =>
    rw [writeMemberOnto, writeMember]
    split
    · exact Shape.encodeOnto_eq h .expanded _ v b
    · simp
  | _ => simp [writeMemberOnto, writeMember]

theorem Decl.encodeOnto_eq (d : Decl) (v : Value) (b : List UInt8) :
    d.encodeOnto onto v b = b ++ d.encode named v := by
  cases d with
  | record slots =>
    cases v with
    | record vs => exact encodeSlotsOnto_eq h slots vs b
    | _ => simp [encodeOnto, encode]
  | holder u => cases v <;> simp [encodeOnto, encode, Members.writeMemberOnto_eq h]

end Onto

namespace Schema

variable {Γ : Schema}

theorem encodeNamedOnto_eq (depth : Nat) (name : String) (v : Value) (b : List UInt8) :
    Γ.encodeNamedOnto depth name v b = b ++ Γ.encodeNamed depth name v := by
  induction depth generalizing name v b with
  | zero => simp [encodeNamedOnto, encodeNamed]
  | succ depth ih =>
    rw [encodeNamedOnto, encodeNamed]
    split
    · simp
    · exact Decl.encodeOnto_eq ih _ v b

/-- A value is appended to a buffer, and what is appended does not depend on the buffer. -/
theorem encodeOnto_eq (style : Style) (s : Shape) (v : Value) (b : List UInt8) :
    Γ.encodeOnto style s v b = b ++ Γ.encode style s v :=
  Shape.encodeOnto_eq (encodeNamedOnto_eq _) style s v b

end Schema

/-! ### The depth of references -/

section Depth

variable {named named' : String → Value → List UInt8}

/-- What is written for a value depends only on what is written for declared values that are no
higher. -/
theorem Shape.encode_congr (style : Style) (s : Shape) {v : Value}
    (h : ∀ name u, u.height ≤ v.height → named name u = named' name u) :
    s.encode named style v = s.encode named' style v := by
  induction s generalizing style v with
  | scalar s cast => cases cast <;> cases v <;> rfl
  | converted c w => cases v <;> rfl
  | delegate s ih => exact ih .generic h
  | ref name => exact h name v (Nat.le_refl _)
  | staged s ih => exact ih style h
  | option s ih =>
    cases v with
    | present v =>
      exact congrArg (1 :: ·) (ih style fun name u hu => h name u (Nat.le_succ_of_le hu))
    | _ => rfl
  | array size s ih =>
    cases v with
    | items vs =>
      refine List.flatMap_congr fun v hv => ih style fun name u hu => h name u ?_
      exact Nat.le_succ_of_le (hu.trans (Value.height_le_of_mem hv))
    | _ => rfl
  | seq s ih =>
    cases v with
    | items vs =>
      rw [encode, encode]
      split_ifs
      · rfl
      · refine congrArg _ (List.flatMap_congr fun v hv => ih style fun name u hu => h name u ?_)
        exact Nat.le_succ_of_le (hu.trans (Value.height_le_of_mem hv))
    | _ => rfl
  | map keys key value ihk ihv =>
    cases v with
    | entries es =>
      refine congrArg _ (List.flatMap_congr fun (k, v) he => ?_)
      obtain ⟨hk, hv⟩ := Value.height_le_of_entry he
      exact congrArg₂ _ (ihk style fun name u hu => h name u (Nat.le_succ_of_le (hu.trans hk)))
        (ihv style fun name u hu => h name u (Nat.le_succ_of_le (hu.trans hv)))
    | _ => rfl

theorem encodeSlots_congr (slots : List Slot) {vs : List Value}
    (h : ∀ name u, u.height ≤ Value.heightOfAll vs → named name u = named' name u) :
    encodeSlots named slots vs = encodeSlots named' slots vs := by
  induction slots generalizing vs with
  | nil => rfl
  | cons slot slots ih =>
    cases vs with
    | nil => rfl
    | cons v vs =>
      have hslot := slot.shape.encode_congr .expanded fun name u hu =>
        h name u (hu.trans (Nat.le_max_left _ _))
      rw [encodeSlots, encodeSlots, hslot,
        ih fun name u hu => h name u (hu.trans (Nat.le_max_right _ _))]

/-- A declared type wraps its parts: what is written for it depends only on what is written for
declared values that are lower. -/
theorem Decl.encode_congr (d : Decl) {v : Value}
    (h : ∀ name u, u.height < v.height → named name u = named' name u) :
    d.encode named v = d.encode named' v := by
  cases d with
  | record slots =>
    cases v with
    | record vs => exact encodeSlots_congr slots fun name u hu => h name u (Nat.lt_succ_of_le hu)
    | _ => rfl
  | holder u =>
    cases v with
    | present v =>
      cases v with
      | member tag v =>
        rw [encode, encode, Members.writeMember, Members.writeMember]
        split
        · rename_i m _
          have hheld := m.shape.encode_congr (v := v) .expanded fun name w hw =>
            h name w (by simp only [Value.height]; omega)
          rw [hheld]
        · rfl
      | _ => rfl
    | _ => rfl

end Depth

namespace Schema

variable {Γ : Schema}

theorem encodeNamed_congr {k l : Nat} (name : String) {v : Value} (hk : v.height < k)
    (hl : v.height < l) : Γ.encodeNamed k name v = Γ.encodeNamed l name v := by
  induction k generalizing l name v with
  | zero => cases hk
  | succ k ih =>
    cases l with
    | zero => cases hl
    | succ l =>
      rw [encodeNamed, encodeNamed]
      split
      · rfl
      · exact Decl.encode_congr _ fun name u hu => ih name (by omega) (by omega)

/-- References may be followed deeper than the value is high. -/
theorem encode_of_height_lt {k : Nat} (style : Style) (s : Shape) {v : Value} (h : v.height < k) :
    s.encode (Γ.encodeNamed k) style v = Γ.encode style s v :=
  s.encode_congr style fun name u hu => encodeNamed_congr name (by omega) (by omega)

/-! ### What is written for a value, from its parts -/

theorem encode_present (style : Style) (s : Shape) (v : Value) :
    Γ.encode style (.option s) (.present v) = 1 :: Γ.encode style s v :=
  congrArg (1 :: ·) (encode_of_height_lt style s (Nat.lt_succ_of_lt (Nat.lt_succ_self _)))

/-- The items of a sequence may be written with references followed as deep as the sequence is
high. -/
theorem flatMap_encode (style : Style) (s : Shape) (vs : List Value) :
    vs.flatMap (s.encode (Γ.encodeNamed ((Value.items vs).height + 1)) style) =
      vs.flatMap (Γ.encode style s) := by
  refine List.flatMap_congr fun v hv => encode_of_height_lt style s ?_
  have := Value.height_le_of_mem hv
  simp only [Value.height]
  omega

theorem encode_array (style : Style) (size : Nat) (s : Shape) (vs : List Value) :
    Γ.encode style (.array size s) (.items vs) = vs.flatMap (Γ.encode style s) :=
  flatMap_encode style s vs

theorem encode_seq {style : Style} {s : Shape} (h : ¬(style = .expanded ∧ s.isRawByte))
    (vs : List Value) :
    Γ.encode style (.seq s) (.items vs) =
      Varint.write vs.length ++ vs.flatMap (Γ.encode style s) := by
  rw [encode, Shape.encode, if_neg h, flatMap_encode]

theorem encode_map (style : Style) (keys : Keys) (key value : Shape) (es : Entries) :
    Γ.encode style (.map keys key value) (.entries es) =
      Varint.write es.length ++
        es.flatMap fun e => Γ.encode style key e.1 ++ Γ.encode style value e.2 := by
  refine congrArg (Varint.write es.length ++ ·) (List.flatMap_congr fun (k, v) he => ?_)
  have := Value.height_le_of_entry he
  refine congrArg₂ _ (encode_of_height_lt style key ?_) (encode_of_height_lt style value ?_) <;>
    · simp only [Value.height]
      omega

theorem encodeSlots_eq {k : Nat} {vs : List Value} (slots : List Slot)
    (hk : Value.heightOfAll vs < k) :
    encodeSlots (Γ.encodeNamed k) slots vs =
      (slots.zip vs).flatMap fun p =>
        if p.1.offWire then [] else Γ.encode .expanded p.1.shape p.2 := by
  induction slots generalizing vs with
  | nil => rfl
  | cons slot slots ih =>
    cases vs with
    | nil => rfl
    | cons v vs =>
      rw [Value.heightOfAll] at hk
      rw [encodeSlots, ih (by omega), encode_of_height_lt .expanded slot.shape (by omega)]
      rfl

theorem encode_record (style : Style) {name : String} {slots : List Slot}
    (hf : Γ.find? name = some (.record slots)) (vs : List Value) :
    Γ.encode style (.ref name) (.record vs) =
      (slots.zip vs).flatMap fun p =>
        if p.1.offWire then [] else Γ.encode .expanded p.1.shape p.2 := by
  rw [encode, Shape.encode, encodeNamed, hf]
  exact encodeSlots_eq slots (Nat.lt_succ_self _)

theorem encode_empty (style : Style) {name : String} {u : Members}
    (hf : Γ.find? name = some (.holder u)) : Γ.encode style (.ref name) .absent = [0] := by
  rw [encode, Shape.encode, encodeNamed, hf]
  rfl

theorem encode_held (style : Style) {name : String} {u : Members} {tag : Nat} {m : Member}
    (hf : Γ.find? name = some (.holder u)) (hm : u.member? tag = some m) (v : Value) :
    Γ.encode style (.ref name) (.present (.member tag v)) =
      tag.toUInt8 :: Γ.encode .expanded m.shape v := by
  rw [encode, Shape.encode, encodeNamed, hf]
  refine congrArg (tag.toUInt8 :: ·) ?_
  rw [Members.writeMember, hm]
  refine encode_of_height_lt .expanded m.shape ?_
  simp only [Value.height]
  omega

/-! ### Expanded and generic code -/

/-- A byte is written as it is. -/
theorem Fits.encode_byte {v : Value} (h : Γ.Fits (.scalar .byte none) v) (style : Style) :
    Γ.encode style (.scalar .byte none) v = [v.toByte] := by
  cases h with
  | @scalar s d hd =>
    cases d with
    | int i =>
      have hi : i % (IntType.byte.modulus : Int) = i := IntType.wrap_of_inRange hd
      show LittleEndian.bytes 1 (i % (IntType.byte.modulus : Int)).toNat = [i.toNat.toUInt8]
      rw [hi]
      rfl
    | _ => cases hd

/-- Expanded and generic code write the same bytes. -/
theorem Fits.encode_style {s : Shape} {v : Value} (h : Γ.Fits s v) (style : Style) :
    Γ.encode style s v = Γ.encode .generic s v := by
  induction h generalizing style with
  | scalar _ | cast _ _ _ | converted _ _ | delegate _ _ | absent | record _ _ _ _ | empty _
  | held _ _ _ _ _ => rfl
  | staged _ ih => exact ih style
  | present _ ih => rw [encode_present, encode_present, ih]
  | array _ _ ih =>
    rw [encode_array, encode_array]
    exact List.flatMap_congr fun v hv => ih v hv style
  | @seq s vs hl hvs ih =>
    have hgen : ¬(Style.generic = .expanded ∧ s.isRawByte) := by simp
    rw [encode_seq hgen]
    by_cases hraw : style = .expanded ∧ s.isRawByte
    · -- the bytes at once are the bytes one by one
      obtain rfl := Shape.isRawByte_iff.1 hraw.2
      rw [encode, Shape.encode, if_pos hraw, writeBytes, List.length_map,
        List.flatMap_congr fun v hv => (hvs v hv).encode_byte .generic, List.map_eq_flatMap]
    · rw [encode_seq hraw]
      exact congrArg _ (List.flatMap_congr fun v hv => ih v hv style)
  | map _ _ _ _ ihk ihv =>
    rw [encode_map, encode_map]
    exact congrArg _ (List.flatMap_congr fun e he => by rw [ihk e he style, ihv e he style])

end Schema

end Marshal
