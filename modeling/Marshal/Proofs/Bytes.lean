import Marshal.Proofs.Encoding
import Marshal.Proofs.Parts
import Marshal.Proofs.Unfolding

/-!
# Three ways to decode bytes

A sequence of bytes is decoded in three ways.  The code of a field takes all bytes behind the length
at once.  If the field is cast, even to the byte it is, its code checks the length and then goes
through the bytes one by one.  The generic code goes through them without a check.

`bytesOutcome` says what there is to answer: the bytes, if there are as many as the length says.
The ways differ in nothing but the receiver that is left where there are fewer.  The first two
leave it alone (`Schema.decode_bytes`), and the third has filled it with all bytes that were there
(`Schema.decode_bytes_generic`).  The main result `Schema.bytes_agree` is about the fields of a
declaration, and adds that all ways write the same.
-/

namespace Marshal

/-! ### Bytes one by one -/

/-- A byte that is cast to a byte is read as it is. -/
theorem Scalar.read_byte_cast : Scalar.byte.read (some (.fixed .byte)) = Scalar.byte.read none := by
  funext bs
  have hwrap (v : Int) : IntType.byte.wrap (IntType.byte.wrap v) = IntType.byte.wrap v :=
    IntType.wrap_of_inRange (IntType.byte.inRange_wrap v)
  rcases h : Reader.take 1 bs with e | ⟨cs, n⟩
  · have hnone {f : Datum → Value} : (Wire.read (.fixed .byte)).map f bs = .error e :=
      Reader.map_eq_error.2 (Reader.map_eq_error.2 h)
    exact hnone.trans hnone.symm
  · have hread : Wire.read (.fixed .byte) bs =
        .ok (.int (IntType.byte.wrap (LittleEndian.value cs)), n) := Reader.map_eq_ok.2 ⟨cs, h, rfl⟩
    refine (Reader.map_eq_ok.2 ⟨_, hread, ?_⟩).trans (Reader.map_eq_ok.2 ⟨_, hread, rfl⟩).symm
    exact congrArg (fun v => Value.datum (.int v)) (hwrap _)

/-- Where there are too few bytes, those that are there have been read when the input ends. -/
theorem collect_byte_of_lt {count used : Nat} {bs : List UInt8} {got : Array Value}
    (h : bs.length < count) :
    (Scalar.byte.read none).collect count bs used got =
      (.error .truncated, got ++ (bs.map fun b => .datum (.int b.toNat)).toArray) := by
  induction count generalizing bs used got with
  | zero => cases h
  | succ count ih =>
    by_cases hbs : bs = []
    · subst hbs
      exact Reader.collect_succ_eq_error.2 (.inl ⟨rfl, by simp⟩)
    · obtain ⟨b, cs, rfl⟩ := List.exists_cons_of_ne_nil hbs
      refine Reader.collect_succ_eq_error.2 (.inr ⟨_, 1, Scalar.read_byte b cs, ?_⟩)
      rw [List.drop_one, List.tail_cons, ih (Nat.lt_of_succ_lt_succ h)]
      simp

/-! ### Bytes behind their length -/

/-- What is answered for bytes behind their length, if `left` is what the receiver is left with where
there are fewer than the length says. -/
def bytesOutcome (r : Value) (left : List UInt8 → Value) (bs : List UInt8) : Outcome :=
  match Varint.read bs with
  | .error e => ⟨.error e, r⟩
  | .ok (length, n) =>
    if length.toNat ≤ (bs.drop n).length then
      ⟨.ok (n + length.toNat), .ofBytes ((bs.drop n).take length.toNat)⟩
    else ⟨.error .truncated, left (bs.drop n)⟩

theorem Decoder.refill_byte (checked : Bool) (r : Value) (bs : List UInt8) :
    refill checked (Scalar.byte.read none) .items r bs =
      bytesOutcome r (fun cs => if checked then r else .ofBytes cs) bs := by
  unfold bytesOutcome
  rcases hread : Varint.read bs with e | ⟨length, n⟩
  · simp only [refill, hread]
  · by_cases hle : length.toNat ≤ (bs.drop n).length
    · rw [refill_of_pass hread (fun _ => hle) (collect_byte hle)]
      simp only [hle, ↓reduceIte, Array.empty_append, Value.ofBytes]
    · by_cases hc : checked = true
      · rw [refill_of_refuse hread fun hpass => hle (hpass hc)]
        simp only [hle, hc, ↓reduceIte]
      · rw [refill_of_pass hread (fun h => absurd h hc) (collect_byte_of_lt (Nat.lt_of_not_le hle))]
        simp only [hle, hc, ↓reduceIte, Array.empty_append, Value.ofBytes, Bool.false_eq_true]

namespace Schema

variable (Γ : Schema)

/-- The code of a field of bytes leaves the receiver alone if it fails, cast or not. -/
theorem decode_bytes {cast : Option Wire} (hc : ∀ w ∈ cast, w = .fixed .byte) (r : Value)
    (bs : List UInt8) :
    Γ.decode .expanded (.seq (.scalar .byte cast)) r bs = bytesOutcome r (fun _ => r) bs := by
  have hitem : Γ.decodeFresh .expanded (.scalar .byte cast) = Scalar.byte.read none := by
    rw [decodeFresh]
    refine (Decoder.fresh_ofReader _ _).trans ?_
    cases cast with
    | none => rfl
    | some w => rw [hc w rfl, Scalar.read_byte_cast]
  rw [decode_seq, hitem]
  exact Decoder.refill_byte true r bs

/-- Generic code fills the receiver with what there is. -/
theorem decode_bytes_generic (r : Value) (bs : List UInt8) :
    Γ.decode .generic (.seq (.scalar .byte none)) r bs = bytesOutcome r .ofBytes bs := by
  have hitem : Γ.decodeFresh .generic (.scalar .byte none) = Scalar.byte.read none :=
    Decoder.fresh_ofReader _ _
  rw [decode_seq, hitem]
  exact Decoder.refill_byte false r bs

/-- A byte is written as it is, cast or not. -/
theorem encode_byte {cast : Option Wire} (hc : ∀ w ∈ cast, w = .fixed .byte) (style : Style)
    (b : UInt8) : Γ.encode style (.scalar .byte cast) (.datum (.int b.toNat)) = [b] := by
  have hb : IntType.byte.InRange b.toNat := by
    have hlt := b.toNat_lt
    exact ⟨Int.natCast_nonneg _, show (b.toNat : Int) ≤ 255 by omega⟩
  have hnone : Γ.encode style (.scalar .byte none) (.datum (.int b.toNat)) = [b] := by
    have hfits : Γ.Fits (.scalar .byte none) (.datum (.int b.toNat)) := .scalar (s := .byte) hb
    rw [hfits.encode_byte style]
    simp [Value.toByte]
  cases cast with
  | none => exact hnone
  | some w =>
    rw [hc w rfl]
    refine Eq.trans ?_ hnone
    exact congrArg (fun v => Wire.write (.fixed .byte) (.int v)) (IntType.wrap_of_inRange hb)

/-- Bytes are written behind their length, in whatever way. -/
theorem encode_bytes {cast : Option Wire} (hc : ∀ w ∈ cast, w = .fixed .byte) (style : Style)
    (cs : List UInt8) : Γ.encode style (.seq (.scalar .byte cast)) (.ofBytes cs) = writeBytes cs := by
  by_cases hraw : style = .expanded ∧ (Shape.scalar .byte cast).isRawByte
  · rw [Value.ofBytes, encode, Shape.encode, if_pos hraw, List.map_map]
    refine congrArg writeBytes ((List.map_congr_left fun b _ => ?_).trans (List.map_id cs))
    simp [Value.toByte]
  · rw [Value.ofBytes, encode_seq hraw, List.length_map, List.flatMap_map, writeBytes]
    refine congrArg _ ((List.flatMap_congr fun b _ => Γ.encode_byte hc style b).trans ?_)
    rw [← List.map_eq_flatMap, List.map_id']

end Schema

/-! ### Fields of bytes -/

/-- The type of sequences of bytes. -/
def TypeExpr.bytes : TypeExpr := .apply "Vec" [.named "u8"]

theorem TypeExpr.shape_bytes (vocabulary : Vocabulary) :
    TypeExpr.bytes.shape? vocabulary = some (.seq (.scalar .byte none)) := rfl

theorem Field.shape_bytes {name : String} {d : FieldDecl} {depth : Nat} {f : Field}
    (hd : d.type = .bytes) (hf : Field.build name d depth = .ok f) (vocabulary : Vocabulary) :
    f.shape? vocabulary = some (.seq (.scalar .byte f.modifiers.cast)) := by
  obtain ⟨g, hg, hf⟩ := Field.build_eq_ok hf
  obtain ⟨m, -, rfl⟩ := Field.finish_eq_ok hf
  rw [hd] at hg
  cases hg
  rfl

/-- **Three ways to decode bytes.**  Take a field of bytes that is not cast and one that is cast to
`u8`.  On every input and with every receiver their code has the same outcome, which leaves the
receiver alone if it is a failure, and both append the same to every buffer.  The generic code of
the type accepts the same inputs with the same bytes and counts, and fails with the same fault.  But
if it fails behind a length that can be read, it leaves all bytes that follow the length. -/
theorem Schema.bytes_agree {d d' : FieldDecl} {name name' : String} {depth depth' : Nat}
    {f f' : Field} (hd : d.type = .bytes) (hd' : d'.type = .bytes)
    (hf : Field.build name d depth = .ok f) (hf' : Field.build name' d' depth' = .ok f')
    (hc : f.modifiers.cast = none) (hc' : f'.modifiers.cast = Wire.ofCastName? "u8")
    (vocabulary : Vocabulary) (Γ : Schema) :
    ∃ s s' t, f.shape? vocabulary = some s ∧ f'.shape? vocabulary = some s' ∧
      TypeExpr.bytes.shape? vocabulary = some t ∧
      (∀ r bs, Γ.decode .expanded s r bs = bytesOutcome r (fun _ => r) bs ∧
        Γ.decode .expanded s' r bs = Γ.decode .expanded s r bs) ∧
      (∀ cs b, Γ.encodeOnto .expanded s (.ofBytes cs) b = b ++ writeBytes cs ∧
        Γ.encodeOnto .expanded s' (.ofBytes cs) b = b ++ writeBytes cs) ∧
      ∀ r bs, (Γ.decode .generic t r bs).result = (Γ.decode .expanded s r bs).result ∧
        (∀ n w, Γ.decode .expanded s r bs = ⟨.ok n, w⟩ ↔ Γ.decode .generic t r bs = ⟨.ok n, w⟩) ∧
        (∀ e length n, (Γ.decode .generic t r bs).result = .error e →
          Varint.read bs = .ok (length, n) →
          (Γ.decode .generic t r bs).receiver = .ofBytes (bs.drop n)) ∧
        ∀ e, Varint.read bs = .error e → (Γ.decode .generic t r bs).receiver = r := by
  have hs := Field.shape_bytes hd hf vocabulary
  have hs' := Field.shape_bytes hd' hf' vocabulary
  have hu8 : Wire.ofCastName? "u8" = some (.fixed .byte) := by decide
  rw [hc] at hs
  rw [hc', hu8] at hs'
  have hnone : ∀ w ∈ (none : Option Wire), w = .fixed .byte := by simp
  have hbyte : ∀ w ∈ some (Wire.fixed .byte), w = .fixed .byte := by simp
  refine ⟨_, _, _, hs, hs', TypeExpr.shape_bytes vocabulary, fun r bs => ?_, fun cs b => ?_,
    fun r bs => ?_⟩
  · exact ⟨Γ.decode_bytes hnone r bs,
      (Γ.decode_bytes hbyte r bs).trans (Γ.decode_bytes hnone r bs).symm⟩
  · rw [encodeOnto_eq, encodeOnto_eq, Γ.encode_bytes hnone, Γ.encode_bytes hbyte]
    exact ⟨rfl, rfl⟩
  · rw [Γ.decode_bytes hnone, Γ.decode_bytes_generic]
    unfold bytesOutcome
    rcases hread : Varint.read bs with e | ⟨length, n⟩
    · simp
    · -- the two part where there are fewer bytes than the length says
      by_cases hle : length.toNat ≤ (bs.drop n).length
      · simp only [hle, ↓reduceIte]
        simp
      · simp only [hle, ↓reduceIte]
        simp +contextual

/-- The field of bytes with the given modifiers. -/
def Field.raw (m : Modifiers) : Field :=
  .sequence ⟨"self.raw", m⟩ .bytes 0
    (.leaf ⟨"self.raw[i0]", m⟩ (.named "u8") (some (.fixed .byte)))

/-- Two bytes behind a length of `2 ^ 64 - 1`. -/
def farLength : List UInt8 := [255, 255, 255, 255, 255, 255, 255, 255, 255, 1, 7, 8]

theorem Schema.bytes_agree_farLength :
    Field.build "self.raw" { type := .bytes } 0 = .ok (.raw {}) ∧
    Field.build "self.raw" ⟨none, .bytes, [⟨"cod", .entries [.keyed "cast" (.string "u8")]⟩]⟩ 0 =
      .ok (.raw { cast := some (.fixed .byte) }) ∧
    ∃ s s' t, (Field.raw {}).shape? {} = some s ∧
      (Field.raw { cast := some (.fixed .byte) }).shape? {} = some s' ∧
      TypeExpr.bytes.shape? {} = some t ∧
      Schema.decode {} .expanded s (.ofBytes [1]) farLength =
        ⟨.error .truncated, .ofBytes [1]⟩ ∧
      Schema.decode {} .expanded s' (.ofBytes [1]) farLength =
        ⟨.error .truncated, .ofBytes [1]⟩ ∧
      (Schema.decode {} .generic t (.ofBytes [1]) farLength).result = .error .truncated ∧
      (Schema.decode {} .generic t (.ofBytes [1]) farLength).receiver = .ofBytes [7, 8] := by
  have hf : Field.build "self.raw" { type := .bytes } 0 = .ok (.raw {}) := rfl
  have hf' : Field.build "self.raw"
      ⟨none, .bytes, [⟨"cod", .entries [.keyed "cast" (.string "u8")]⟩]⟩ 0 =
        .ok (.raw { cast := some (.fixed .byte) }) := rfl
  have hread : Varint.read farLength = .ok (0xffffffffffffffff, 10) := by decide +kernel
  obtain ⟨s, s', t, hs, hs', ht, hdecode, -, hgeneric⟩ :=
    bytes_agree rfl rfl hf hf' rfl (by decide) {} {}
  obtain ⟨hfast, hloop⟩ := hdecode (.ofBytes [1]) farLength
  obtain ⟨hresult, -, hleft, -⟩ := hgeneric (.ofBytes [1]) farLength
  have hfail : Schema.decode {} .expanded s (.ofBytes [1]) farLength =
      ⟨.error .truncated, .ofBytes [1]⟩ := by
    rw [hfast, bytesOutcome, hread]
    rfl
  rw [hfail] at hresult
  exact ⟨hf, hf', s, s', t, hs, hs', ht, hfail, hloop.trans hfail, hresult,
    hleft _ _ _ hresult hread⟩

end Marshal
