import Marshal.Wire
import Marshal.Proofs.Varint

/-!
# Wire kinds read back

`Wire.reads_write` says that a datum of the right type is read back from its bytes in every wire
kind, and `Wire.uses_read` and `Wire.tracks_read` that reading takes at least one byte and looks at
no byte beyond those it uses.  `Scalar.has_convert` says that a number that changes its type has the
new type, whatever is lost of it on the way.
-/

namespace Marshal

/-! ### Little-endian numbers -/

namespace LittleEndian

@[simp] theorem length_bytes (k v : Nat) : (bytes k v).length = k := by
  induction k generalizing v with
  | zero => rfl
  | succ k ih => simp [bytes, ih]

theorem value_bytes {k v : Nat} (h : v < 256 ^ k) : value (bytes k v) = v := by
  induction k generalizing v with
  | zero => simp at h; simp [bytes, value, h]
  | succ k ih =>
    have hq : v / 256 < 256 ^ k := by
      rw [Nat.pow_succ] at h
      exact Nat.div_lt_of_lt_mul (by omega)
    simp only [bytes, value, ih hq, Nat.toUInt8_eq, UInt8.toNat_ofNat']
    omega

end LittleEndian

/-! ### Integers -/

theorem Width.bytes_pos (w : Width) : 0 < w.bytes := by cases w <;> decide

theorem Width.modulus_eq (w : Width) : w.modulus = 256 ^ w.bytes := by cases w <;> rfl

theorem Width.modulus_even (w : Width) : w.modulus % 2 = 0 := by cases w <;> decide

theorem Width.modulus_le (w : Width) : w.modulus ≤ 2 ^ 64 := by cases w <;> decide

namespace IntType

theorem modulus_pos (t : IntType) : 0 < t.modulus := by
  rw [modulus, Width.modulus_eq]
  exact Nat.pow_pos (by decide)

theorem modulus_even (t : IntType) : t.modulus % 2 = 0 := t.width.modulus_even

theorem modulus_le (t : IntType) : t.modulus ≤ 2 ^ 64 := t.width.modulus_le

theorem inRange_wrap (t : IntType) (v : Int) : t.InRange (t.wrap v) := by
  have hm := t.modulus_pos
  have h2 := t.modulus_even
  unfold InRange wrap min max
  split_ifs with hs
  · have hle := Int.le_bmod (x := v) hm
    have hlt := Int.bmod_lt (x := v) hm
    omega
  · have := Int.emod_nonneg v (by omega : (t.modulus : Int) ≠ 0)
    have := Int.emod_lt_of_pos v (by omega : (0 : Int) < t.modulus)
    omega

theorem wrap_of_inRange {t : IntType} {v : Int} (h : t.InRange v) : t.wrap v = v := by
  have h2 := t.modulus_even
  unfold InRange min max at h
  unfold wrap
  split_ifs at h ⊢ with hs
  · exact Int.bmod_eq_of_le (by omega) (by omega)
  · exact Int.emod_eq_of_lt h.1 (by omega)

theorem wrap_emod (t : IntType) (v : Int) : t.wrap (v % t.modulus) = t.wrap v := by
  unfold wrap
  split_ifs
  · exact Int.emod_bmod v t.modulus
  · exact Int.emod_emod_of_dvd v (Int.dvd_refl _)

theorem inRange_clamp (t : IntType) (v : Int) : t.InRange (t.clamp v) := by
  have hm := t.modulus_pos
  have h2 := t.modulus_even
  have hle : t.min ≤ t.max := by
    unfold min max
    split_ifs <;> omega
  unfold InRange clamp
  split_ifs <;> omega

theorem inRange_zero (t : IntType) : t.InRange 0 := by
  have hm := t.modulus_pos
  have h2 := t.modulus_even
  unfold InRange min max
  split_ifs <;> omega

theorem inRange_min (t : IntType) : t.InRange t.min := by
  have := t.inRange_zero
  unfold InRange at this ⊢
  omega

theorem inRange_max (t : IntType) : t.InRange t.max := by
  have := t.inRange_zero
  unfold InRange at this ⊢
  omega

/-- A value of an unsigned type is a natural number below the modulus. -/
theorem natural_of_inRange {t : IntType} {v : Int} (hs : t.signed = false) (h : t.InRange v) :
    0 ≤ v ∧ v.toNat < 2 ^ 64 := by
  have := t.modulus_le
  simp only [InRange, min, max, hs, Bool.false_eq_true, ↓reduceIte] at h
  omega

/-- A value of a signed type is a signed word. -/
theorem word_of_inRange {t : IntType} {v : Int} (hs : t.signed = true) (h : t.InRange v) :
    (Int64.ofInt v).toInt = v := by
  have := t.modulus_le
  simp only [InRange, min, max, hs, ↓reduceIte] at h
  exact Int64.toInt_ofInt_of_le (by omega) (by omega)

end IntType

/-! ### Floating point numbers -/

namespace FloatType

theorem bytes_pos (f : FloatType) : 0 < f.bytes := by cases f <;> decide

theorem two_mul_signPlace (f : FloatType) : 2 * f.signPlace = 256 ^ f.bytes := by cases f <;> rfl

theorem infinity_add_exponentPlace (f : FloatType) :
    f.infinity + f.exponentPlace = f.signPlace := by
  cases f <;> rfl

theorem exponentPlace_pos (f : FloatType) : 0 < f.exponentPlace := by cases f <;> decide

theorem exponentPlace_even (f : FloatType) : f.exponentPlace % 2 = 0 := by cases f <;> decide

theorem withSign_lt {f : FloatType} {bits : Nat} (negative : Bool) (h : bits < f.signPlace) :
    f.withSign negative bits < 2 * f.signPlace := by
  unfold withSign
  split_ifs <;> omega

theorem infinity_lt_signPlace (f : FloatType) : f.infinity < f.signPlace := by
  have := f.infinity_add_exponentPlace
  have := f.exponentPlace_pos
  omega

theorem pack_lt (f : FloatType) (negative : Bool) (m : Nat) (q : Int) :
    f.pack negative m q < 2 * f.signPlace := by
  have := f.infinity_lt_signPlace
  unfold pack
  split_ifs
  · exact withSign_lt _ (by omega)
  · exact withSign_lt _ (by omega)

theorem quietFraction_lt (f g : FloatType) (bits : Nat) :
    f.quietFraction g bits < g.exponentPlace := by
  have hf := f.exponentPlace_pos
  have hg := g.exponentPlace_pos
  have h2 := g.exponentPlace_even
  have hlt : bits % f.exponentPlace * g.exponentPlace / f.exponentPlace < g.exponentPlace := by
    rw [Nat.div_lt_iff_lt_mul hf, Nat.mul_comm g.exponentPlace]
    exact Nat.mul_lt_mul_of_pos_right (Nat.mod_lt _ hf) hg
  unfold quietFraction
  dsimp only
  split_ifs <;> omega

theorem convert_lt {f : FloatType} (g : FloatType) {bits : Nat} (h : bits < 2 * f.signPlace) :
    f.convert g bits < 2 * g.signPlace := by
  unfold convert
  split_ifs with hfg
  · exact hfg ▸ h
  · split
    · have := f.quietFraction_lt g bits
      have := g.infinity_add_exponentPlace
      exact withSign_lt _ (by omega)
    · exact withSign_lt _ g.infinity_lt_signPlace
    · exact g.pack_lt _ _ _

theorem inRange_toInt (f : FloatType) (t : IntType) (bits : Nat) : t.InRange (f.toInt t bits) := by
  unfold toInt
  split
  · exact t.inRange_zero
  · split_ifs
    · exact t.inRange_min
    · exact t.inRange_max
  · exact t.inRange_clamp _

end FloatType

/-! ### Scalars -/

namespace Scalar

/-- A number that changes its type has the new type. -/
theorem has_convert {s t : Scalar} {d : Datum} (hs : s.numeric) (ht : t.numeric) (h : s.Has d) :
    t.Has (s.convert t d) := by
  cases s with
  | int t' =>
    cases d with
    | int v =>
      cases t with
      | int u => exact u.inRange_wrap v
      | float g => exact g.pack_lt _ _ _
      | bool | text => cases ht
    | float | bool | text => cases h
  | float f =>
    cases d with
    | float bits =>
      cases t with
      | int u => exact f.inRange_toInt u bits
      | float g => exact f.convert_lt g h
      | bool | text => cases ht
    | int | bool | text => cases h
  | bool | text => cases hs

theorem scalar_wire (s : Scalar) : s.wire.scalar = s := by
  cases s with
  | int t =>
    obtain ⟨signed, width⟩ := t
    cases width <;> rfl
  | float | bool | text => rfl

end Scalar

/-! ### Text -/

theorem length_textBytes (s : String) : (textBytes s).length = s.utf8ByteSize := rfl

theorem textOfBytes_textBytes (s : String) : textOfBytes (textBytes s) = .ok s := by
  have h : (⟨(textBytes s).toArray⟩ : ByteArray) = s.toByteArray := by simp [textBytes]
  have hv : s.toByteArray.IsValidUTF8 := s.isValidUTF8
  simp only [textOfBytes, h, String.fromUTF8?, hv, ↓reduceDIte]
  rfl

/-- The UTF-8 form of a text is the bytes it was made from. -/
theorem textBytes_of_textOfBytes {bs : List UInt8} {s : String} (h : textOfBytes bs = .ok s) :
    textBytes s = bs := by
  unfold textOfBytes at h
  split at h
  · rename_i s' hs
    cases h
    unfold String.fromUTF8? at hs
    split_ifs at hs with hv
    cases hs
    rfl
  · cases h

theorem reads_writeBytes {m : Nat} {bs : List UInt8} (h : bs.length < 2 ^ 64) :
    readBytes.Reads m (writeBytes bs) bs := by
  have hl : (bs.length.toUInt64).toNat = bs.length := by simpa using h
  exact (Varint.reads_write h).andThen (Reader.reads_take (m := m) hl.symm) (by omega)

theorem uses_readBytes : readBytes.Uses 1 := Varint.uses_read.andThen _

theorem tracks_readBytes (L L' : Nat) : readBytes.Tracks L L' readBytes :=
  (Varint.tracks_read L L').andThen fun _ => Reader.tracks_take L L' _

/-! ### Wire kinds -/

namespace Wire

theorem reads_fixed {t : IntType} {v : Int} (m : Nat) (h : t.InRange v) :
    (read (fixed t)).Reads m (write (fixed t) (.int v)) (.int v) := by
  have hm := t.modulus_pos
  have hnn := Int.emod_nonneg v (by omega : (t.modulus : Int) ≠ 0)
  have hlt := Int.emod_lt_of_pos v (by omega : (0 : Int) < t.modulus)
  have hbytes : (v % t.modulus).toNat < 256 ^ t.width.bytes := by
    rw [← Width.modulus_eq]
    change _ < t.modulus
    omega
  have hr := (Reader.reads_take (m := m)
    (LittleEndian.length_bytes t.width.bytes (v % t.modulus).toNat)).map
      fun bs => Datum.int (t.wrap (LittleEndian.value bs))
  rwa [LittleEndian.value_bytes hbytes, Int.toNat_of_nonneg hnn, t.wrap_emod,
    IntType.wrap_of_inRange h] at hr

theorem read_signed {t : IntType} (hs : t.signed = true) :
    read (var t) = Varint.read.refine fun u => accept t (Zigzag.decode u).toInt := by
  simp [read, hs]

theorem read_unsigned {t : IntType} (hs : t.signed = false) :
    read (var t) = Varint.read.refine fun u => accept t u.toNat := by
  simp [read, hs]

theorem reads_var {t : IntType} {v : Int} (m : Nat) (h : t.InRange v) :
    (read (var t)).Reads m (write (var t) (.int v)) (.int v) := by
  have haccept : accept t v = .ok (.int v) := if_pos h
  cases hs : t.signed with
  | true =>
    have hwrite : write (var t) (.int v) =
        Varint.write (Zigzag.encode (Int64.ofInt v)).toNat := by simp [write, hs]
    rw [read_signed hs, hwrite]
    refine (Varint.reads_write (UInt64.toNat_lt _)).refine ?_
    rw [Nat.toUInt64_eq, UInt64.ofNat_toNat, Zigzag.decode_encode, IntType.word_of_inRange hs h,
      haccept]
  | false =>
    obtain ⟨hnn, hlt⟩ := IntType.natural_of_inRange hs h
    have hwrite : write (var t) (.int v) = Varint.write v.toNat := by simp [write, hs]
    rw [read_unsigned hs, hwrite]
    refine (Varint.reads_write hlt).refine ?_
    have hu : v.toNat.toUInt64.toNat = v.toNat := by
      rw [Nat.toUInt64_eq, UInt64.toNat_ofNat', Nat.mod_eq_of_lt hlt]
    rw [hu, Int.toNat_of_nonneg hnn, haccept]

/-- **Every wire kind reads back what it writes**, whatever follows. -/
theorem reads_write {w : Wire} {d : Datum} (m : Nat) (h : w.scalar.Has d) :
    w.read.Reads m (w.write d) d := by
  cases w with
  | fixed t =>
    cases d with
    | int v => exact reads_fixed m h
    | float | bool | text => cases h
  | var t =>
    cases d with
    | int v => exact reads_var m h
    | float | bool | text => cases h
  | float f =>
    cases d with
    | float bits =>
      have hr := (Reader.reads_take (m := m) (LittleEndian.length_bytes f.bytes bits)).map
        fun bs => Datum.float (LittleEndian.value bs)
      rwa [LittleEndian.value_bytes (f.two_mul_signPlace ▸ h)] at hr
    | int | bool | text => cases h
  | bool =>
    cases d with
    | bool b =>
      have hr := (Reader.reads_byte m (if b then 1 else 0)).map fun b => Datum.bool (b == 1)
      cases b <;> exact hr
    | int | float | text => cases h
  | text =>
    cases d with
    | text s =>
      have hl : (textBytes s).length < 2 ^ 64 := by rw [length_textBytes]; exact h
      refine (reads_writeBytes hl).refine ?_
      rw [textOfBytes_textBytes]
      rfl
    | int | float | bool => cases h

theorem uses_read (w : Wire) : w.read.Uses 1 := by
  cases w with
  | fixed t =>
    exact Reader.Uses.map (fun _ _ _ h => t.width.bytes_pos.trans_le (Reader.uses_take _ h)) _
  | var t =>
    cases hs : t.signed with
    | true => rw [read_signed hs]; exact Varint.uses_read.refine _
    | false => rw [read_unsigned hs]; exact Varint.uses_read.refine _
  | float f => exact Reader.Uses.map (fun _ _ _ h => f.bytes_pos.trans_le (Reader.uses_take _ h)) _
  | bool => exact Reader.uses_byte.map _
  | text => exact uses_readBytes.refine _

theorem tracks_read (L L' : Nat) (w : Wire) : w.read.Tracks L L' w.read := by
  cases w with
  | fixed t => exact (Reader.tracks_take L L' _).map _
  | var t =>
    cases hs : t.signed with
    | true => rw [read_signed hs]; exact (Varint.tracks_read L L').refine _
    | false => rw [read_unsigned hs]; exact (Varint.tracks_read L L').refine _
  | float f => exact (Reader.tracks_take L L' _).map _
  | bool => exact (Reader.tracks_byte L L').map _
  | text => exact (tracks_readBytes L L').refine _

end Wire

end Marshal
