import Marshal.Proofs.Wire
import Mathlib

/-!
# Varints of every width

An integer is written as a varint through its *code*: an unsigned integer is its own code, and the
signed ones `0, -1, 1, -2, …` have the codes `0, 1, 2, 3, …` (`IntType.code`).  Three facts about
this way of writing are put together in `Wire.var_exactly`.

* The zigzag numbering, computed by shifts on the bits of a word, gives the codes of the signed words
  and runs through all words (`Zigzag.toNat_encode`, `Zigzag.decode_encode`).
* There are as many bytes as the code has groups of seven bits, and at least one
  (`Varint.length_write`).
* Every reader is the reader of 64 bits with a check of the range behind it (`Wire.narrows_wide`).
-/

namespace Marshal

/-! ### Codes of signed words -/

/-- The number that is written for an integer: the integer itself, or twice its distance from `0`
and one less for the negative ones, if there are any. -/
def IntType.code (t : IntType) (v : Int) : Nat :=
  if t.signed then (if 0 ≤ v then 2 * v else -2 * v - 1).toNat else v.toNat

namespace Zigzag

theorem toBitVec_encode (v : Int64) :
    (encode v).toBitVec = v.toBitVec <<< 1 ^^^ BitVec.fill 64 v.toBitVec.msb := by
  rw [← sshiftRight_top]
  simp [encode]

/-- The bits that are moved up by one, and flipped for a negative word, are those of its code. -/
theorem toNat_encode (v : Int64) :
    (encode v).toNat = IntType.code ⟨true, .w64⟩ v.toInt := by
  have hlt : v.toBitVec.toNat < 2 ^ 64 := v.toBitVec.isLt
  have hmsb := v.toBitVec.msb_eq_decide
  rw [← UInt64.toNat_toBitVec, toBitVec_encode, ← Int64.toInt_toBitVec,
    BitVec.toInt_eq_msb_cond, IntType.code]
  by_cases hneg : v.toBitVec.msb = true
  · -- the bit that is moved out is set, and what is left is taken from all ones
    have hge : 2 ^ 63 ≤ v.toBitVec.toNat := by simpa [hneg] using hmsb.symm
    rw [hneg, BitVec.fill_true, BitVec.xor_allOnes, BitVec.toNat_not, BitVec.toNat_shiftLeft,
      Nat.shiftLeft_eq, if_pos rfl, if_pos rfl, if_neg (by omega)]
    omega
  · have hge : v.toBitVec.toNat < 2 ^ 63 := by simpa [hneg] using hmsb.symm
    rw [Bool.eq_false_of_not_eq_true hneg, BitVec.fill_false, BitVec.xor_zero,
      BitVec.toNat_shiftLeft, Nat.shiftLeft_eq, if_pos rfl, if_neg Bool.false_ne_true,
      if_pos (by omega)]
    omega

theorem bijective_encode : Function.Bijective encode :=
  Function.bijective_iff_has_inverse.2 ⟨decode, decode_encode, encode_decode⟩

end Zigzag

/-! ### How many bytes are written -/

namespace Varint

theorem length_write_le_iff {v k : Nat} : (write v).length ≤ k ↔ 1 ≤ k ∧ v < 2 ^ (7 * k) := by
  rw [Nat.pow_mul]
  constructor
  · intro h
    exact ⟨(length_write_pos v).trans_le h,
      (lt_pow_length_write v).trans_le (Nat.pow_le_pow_right (by decide) h)⟩
  · rintro ⟨hk, hv⟩
    exact length_write_le hk hv

/-- There is a byte for every seven bits, and one for zero. -/
theorem length_write (v : Nat) : (write v).length = max 1 (v.size ⌈/⌉ 7) := by
  refine eq_of_forall_ge_iff fun k => ?_
  rw [length_write_le_iff, max_le_iff, ceilDiv_le_iff_le_mul (by decide), Nat.size_le]

end Varint

namespace Wire

variable {t : IntType} {v : Int}

/-- What is written for an integer is the varint of its code. -/
theorem write_var (h : t.InRange v) : write (var t) (.int v) = Varint.write (t.code v) := by
  by_cases hs : t.signed = true
  · have hcode := Zigzag.toNat_encode (Int64.ofInt v)
    rw [IntType.word_of_inRange hs h] at hcode
    simp only [write, IntType.code, hs, ↓reduceIte, hcode]
  · simp only [write, IntType.code, hs, ↓reduceIte, Bool.false_eq_true]

end Wire

/-! ### Narrow readers -/

/-- The type of 64 bits with the same signedness. -/
def IntType.wide (t : IntType) : IntType := ⟨t.signed, .w64⟩

/-- The integer with a code. -/
def IntType.ofCode (t : IntType) (u : UInt64) : Int :=
  if t.signed then (Zigzag.decode u).toInt else u.toNat

namespace IntType

theorem inRange_wide (t : IntType) (u : UInt64) : t.wide.InRange (t.ofCode u) := by
  by_cases hs : t.signed = true
  · have hle := (Zigzag.decode u).le_toInt
    have hlt := (Zigzag.decode u).toInt_lt
    simp only [InRange, min, max, modulus, wide, ofCode, hs, ↓reduceIte, Width.modulus]
    omega
  · have hlt := u.toNat_lt
    simp only [InRange, min, max, modulus, wide, ofCode, hs, ↓reduceIte, Width.modulus,
      Bool.false_eq_true]
    omega

theorem code_ofCode (t : IntType) (u : UInt64) : t.code (t.ofCode u) = u.toNat := by
  by_cases hs : t.signed = true
  · have hcode := Zigzag.toNat_encode (Zigzag.decode u)
    rw [Zigzag.encode_decode] at hcode
    simp only [hcode, code, ofCode, hs, ↓reduceIte]
  · simp only [code, ofCode, hs, ↓reduceIte, Bool.false_eq_true, Int.toNat_natCast]

/-- A word is the code of one integer of 64 bits. -/
theorem ofCode_eq_iff {t : IntType} {u : UInt64} {v : Int} :
    t.ofCode u = v ↔ t.wide.InRange v ∧ t.code v = u.toNat := by
  constructor
  · rintro rfl
    exact ⟨t.inRange_wide u, t.code_ofCode u⟩
  · rintro ⟨hv, hcode⟩
    by_cases hs : t.signed = true
    · have hword : (Int64.ofInt v).toInt = v := word_of_inRange (t := t.wide) hs hv
      have hencode : Zigzag.encode (Int64.ofInt v) = u := by
        rw [← UInt64.toNat_inj, Zigzag.toNat_encode, hword, ← hcode]
        simp only [code, hs]
      rw [← hencode]
      simp only [ofCode, hs, ↓reduceIte, Zigzag.decode_encode, hword]
    · have hnat := (natural_of_inRange (t := t.wide) (Bool.eq_false_of_not_eq_true hs) hv).1
      simp only [code, ofCode, hs, ↓reduceIte, Bool.false_eq_true] at hcode ⊢
      omega

end IntType

/-- The reader answers as the wide one does, but it refuses the integers that are not of type
`t`. -/
structure Reader.Narrows (t : IntType) (r wide : Reader Datum) : Prop where
  ok : ∀ bs d n, r bs = .ok (d, n) ↔ ∃ v, d = .int v ∧ wide bs = .ok (.int v, n) ∧ t.InRange v
  outOfRange : ∀ bs, r bs = .error .outOfRange ↔
    ∃ v n, wide bs = .ok (.int v, n) ∧ ¬ t.InRange v
  truncated : ∀ bs, r bs = .error .truncated ↔ ∃ e, wide bs = .error e

namespace Wire

section Read

variable {bs : List UInt8} {u : UInt64} {n : Nat} {e : Fault}

theorem read_var (t : IntType) :
    read (var t) = Varint.read.refine fun u => accept t (t.ofCode u) := by
  by_cases hs : t.signed = true
  · simp only [read, IntType.ofCode, hs, ↓reduceIte]
  · simp only [read, IntType.ofCode, hs, ↓reduceIte, Bool.false_eq_true]

theorem read_var_of_error (t : IntType) (hu : Varint.read bs = .error e) :
    read (var t) bs = .error .truncated := by
  rw [read_var, Reader.refine_eq_error, ← Varint.eq_truncated hu]
  exact .inl hu

theorem read_var_of_ok (t : IntType) (hu : Varint.read bs = .ok (u, n)) :
    read (var t) bs =
      if t.InRange (t.ofCode u) then .ok (.int (t.ofCode u), n) else .error .outOfRange := by
  rw [read_var]
  by_cases hr : t.InRange (t.ofCode u)
  · rw [if_pos hr]
    exact Reader.refine_eq_ok.2 ⟨u, hu, if_pos hr⟩
  · rw [if_neg hr]
    exact Reader.refine_eq_error.2 (.inr ⟨u, n, hu, if_neg hr⟩)

/-- No code is out of the range of 64 bits. -/
theorem read_wide_of_ok (t : IntType) (hu : Varint.read bs = .ok (u, n)) :
    read (var t.wide) bs = .ok (.int (t.ofCode u), n) :=
  (read_var_of_ok t.wide hu).trans (if_pos (t.inRange_wide u))

/-- The reader of 64 bits yields the integer whose code it finds. -/
theorem read_wide_eq_ok_iff {t : IntType} {v : Int} :
    read (var t.wide) bs = .ok (.int v, n) ↔
      t.wide.InRange v ∧ ∃ u, Varint.read bs = .ok (u, n) ∧ t.code v = u.toNat := by
  rcases hu : Varint.read bs with e | ⟨u, m⟩
  · simp [read_var_of_error _ hu]
  · rw [read_wide_of_ok t hu]
    constructor
    · intro h
      cases h
      exact ⟨t.inRange_wide u, u, rfl, t.code_ofCode u⟩
    · rintro ⟨hv, u', h, hcode⟩
      cases h
      rw [IntType.ofCode_eq_iff.2 ⟨hv, hcode⟩]

end Read

/-- On every input, a reader and the wide one share the word that they start from. -/
theorem narrows_wide (t : IntType) : (read (var t)).Narrows t (read (var t.wide)) where
  ok bs d n := by
    rcases hu : Varint.read bs with e | ⟨u, m⟩
    · simp [read_var_of_error _ hu]
    · rw [read_var_of_ok t hu, read_wide_of_ok t hu]
      by_cases hr : t.InRange (t.ofCode u)
      · rw [if_pos hr]
        constructor
        · intro h
          cases h
          exact ⟨_, rfl, rfl, hr⟩
        · rintro ⟨v, rfl, h, -⟩
          exact h
      · rw [if_neg hr]
        constructor
        · intro h
          cases h
        · rintro ⟨v, rfl, h, hv⟩
          cases h
          exact absurd hv hr
  outOfRange bs := by
    rcases hu : Varint.read bs with e | ⟨u, m⟩
    · simp [read_var_of_error _ hu]
    · rw [read_var_of_ok t hu, read_wide_of_ok t hu]
      by_cases hr : t.InRange (t.ofCode u) <;> simp [hr]
  truncated bs := by
    rcases hu : Varint.read bs with e | ⟨u, m⟩
    · simp [read_var_of_error _ hu]
    · rw [read_var_of_ok t hu, read_wide_of_ok t hu]
      by_cases hr : t.InRange (t.ofCode u) <;> simp [hr]

/-- **Varints of every width.**  Zigzag numbering is a bijection of the signed words onto the words,
with the inverse that is computed for it, and gives each its code.  An integer of any type takes as
many bytes as its code has groups of seven bits, and at least one.  The reader of 64 bits yields the
integer whose code it finds.  Each reader yields what that one yields, calls it out of range if it is
not of its type, and calls the input truncated if there is nothing to be read. -/
theorem var_exactly :
    (Function.Bijective Zigzag.encode ∧ Function.LeftInverse Zigzag.decode Zigzag.encode ∧
      Function.RightInverse Zigzag.decode Zigzag.encode ∧
      ∀ v, (Zigzag.encode v).toNat = IntType.code ⟨true, .w64⟩ v.toInt) ∧
    ∀ t : IntType,
      (∀ v, t.InRange v →
        (write (var t) (.int v)).length = max 1 ((t.code v).size ⌈/⌉ 7)) ∧
      (∀ bs v n, read (var t.wide) bs = .ok (.int v, n) ↔
        t.wide.InRange v ∧ ∃ u, Varint.read bs = .ok (u, n) ∧ t.code v = u.toNat) ∧
      (read (var t)).Narrows t (read (var t.wide)) := by
  refine ⟨⟨Zigzag.bijective_encode, Zigzag.decode_encode, Zigzag.encode_decode,
    Zigzag.toNat_encode⟩,
    fun t => ⟨fun v hv => ?_, fun bs v n => read_wide_eq_ok_iff, narrows_wide t⟩⟩
  rw [write_var hv, Varint.length_write]

/-- The least integer of 64 bits has the greatest code, takes ten bytes and is no integer of 32
bits. -/
theorem var_exactly_least :
    IntType.InRange ⟨true, .w64⟩ (-2 ^ 63) ∧
    (Zigzag.encode Int64.minValue).toNat = 2 ^ 64 - 1 ∧
    (write (var ⟨true, .w64⟩) (.int (-2 ^ 63))).length = 10 ∧
    read (var ⟨true, .w32⟩) [255, 255, 255, 255, 255, 255, 255, 255, 255, 1] =
      .error .outOfRange := by
  obtain ⟨⟨-, -, -, hcode⟩, hall⟩ := var_exactly
  have hmin : IntType.InRange ⟨true, .w64⟩ (-2 ^ 63) := by decide
  obtain ⟨hlength, hwide, -⟩ := hall ⟨true, .w64⟩
  obtain ⟨-, -, hnarrow⟩ := hall ⟨true, .w32⟩
  refine ⟨hmin, (hcode _).trans (by decide +kernel), (hlength _ hmin).trans (by decide +kernel), ?_⟩
  refine (hnarrow.outOfRange _).2 ⟨-2 ^ 63, 10, ?_, by decide⟩
  exact (hwide _ _ _).2 ⟨hmin, 0xffffffffffffffff, by decide +kernel, by decide +kernel⟩

end Wire

end Marshal
