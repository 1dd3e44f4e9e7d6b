import Marshal.Varint
import Marshal.Zigzag
import Marshal.Proofs.Reader
import Mathlib.Data.Nat.Bitwise

/-!
# Varints read back

`Varint.reads_write` says that every number of 64 bits is read back from its digits, whatever
follows them, and `Zigzag.decode_encode` that a signed word is the word of its code.  The only fault
of a varint is that the input runs out (`Varint.eq_truncated`).  A number may have more digits in
the input than it needs, but it is never read from fewer than are written for it
(`Varint.length_write_le_of_read`).
-/

namespace Marshal

namespace Zigzag

/-- An arithmetic shift by all bits but one spreads the sign. -/
theorem sshiftRight_top (x : BitVec 64) : x.sshiftRight 63 = BitVec.fill 64 x.msb := by
  ext i hi
  rw [BitVec.getElem_sshiftRight, BitVec.getElem_fill]
  by_cases h0 : i = 0
  · subst h0
    simp [BitVec.msb_eq_getLsbD_last]
  · have : ¬ 63 + i < 64 := by omega
    simp [this]

/-- The negative of the lowest bit spreads it. -/
theorem neg_and_one (x : BitVec 64) : -(x &&& 1#64) = BitVec.fill 64 (x.getLsbD 0) := by
  rw [BitVec.and_one_eq_setWidth_ofBool_getLsbD]
  cases x.getLsbD 0 <;> decide

theorem decode_encode (v : Int64) : decode (encode v) = v := by
  apply Int64.toBitVec_inj.1
  have h : (decode (encode v)).toBitVec =
      (v.toBitVec <<< 1 ^^^ v.toBitVec.sshiftRight 63) >>> 1 ^^^
        -((v.toBitVec <<< 1 ^^^ v.toBitVec.sshiftRight 63) &&& 1#64) := by
    simp [decode, encode]
  rw [h, neg_and_one, sshiftRight_top]
  -- the lowest bit of the code is the sign, and every bit is flipped by it twice
  ext i hi
  by_cases h63 : i = 63
  · subst h63
    simp [BitVec.getElem_fill, BitVec.msb_eq_getLsbD_last]
  · have : 1 + i < 64 := by omega
    simp [this, BitVec.getElem_fill]

theorem encode_decode (u : UInt64) : encode (decode u) = u := by
  apply UInt64.toBitVec_inj.1
  have h : (encode (decode u)).toBitVec =
      (u.toBitVec >>> 1 ^^^ -(u.toBitVec &&& 1#64)) <<< 1 ^^^
        (u.toBitVec >>> 1 ^^^ -(u.toBitVec &&& 1#64)).sshiftRight 63 := by
    simp [decode, encode]
  rw [h, neg_and_one, sshiftRight_top]
  -- the sign of the word is the lowest bit of the code, and every bit is flipped by it twice
  ext i hi
  by_cases h0 : i = 0
  · subst h0
    simp [BitVec.getElem_fill, BitVec.msb_eq_getLsbD_last]
  · have hup : 1 + (i - 1) = i := by omega
    simp [h0, hup, BitVec.getElem_fill, BitVec.msb_eq_getLsbD_last, BitVec.getLsbD_eq_getElem hi]

end Zigzag

namespace Varint

/-! ### Writing -/

theorem write_small {v : Nat} (h : v < 128) : write v = [v.toUInt8] := by
  rw [write, if_pos h]

theorem write_large {v : Nat} (h : 128 ≤ v) :
    write v = (v % 128 + 128).toUInt8 :: write (v / 128) := by
  rw [write, if_neg (by omega)]

theorem length_write_pos (v : Nat) : 0 < (write v).length := by
  by_cases h : v < 128
  · simp [write_small h]
  · simp [write_large (Nat.le_of_not_lt h)]

/-- A number of `k` digits is written in `k` bytes at most. -/
theorem length_write_le {v k : Nat} (hk : 0 < k) (hv : v < 128 ^ k) : (write v).length ≤ k := by
  induction k generalizing v with
  | zero => cases hk
  | succ k ih =>
    by_cases h : v < 128
    · rw [write_small h]
      exact hk
    · have hk' : 0 < k := by
        rcases Nat.eq_zero_or_pos k with rfl | hk'
        · exact absurd hv h
        · exact hk'
      rw [write_large (Nat.le_of_not_lt h), List.length_cons]
      exact Nat.succ_le_succ (ih hk' (Nat.div_lt_of_lt_mul (by rwa [Nat.pow_succ'] at hv)))

theorem lt_pow_length_write (v : Nat) : v < 128 ^ (write v).length := by
  induction v using Nat.strongRecOn with
  | ind v ih =>
    by_cases h : v < 128
    · simpa [write_small h] using h
    · have hrest := ih (v / 128) (by omega)
      rw [write_large (Nat.le_of_not_lt h), List.length_cons, Nat.pow_succ]
      omega

theorem length_write_mono {v w : Nat} (h : v ≤ w) : (write v).length ≤ (write w).length :=
  length_write_le (length_write_pos w) (h.trans_lt (lt_pow_length_write w))

/-! ### Reading -/

theorem readFrom_last {i : Nat} {word : UInt64} {b : UInt8} {bs : List UInt8} (hi : i < 10)
    (hb : b.toNat < 128) (h9 : i = 9 → b.toNat ≤ 1) :
    readFrom i word (b :: bs) = .ok (word ||| (b.toUInt64 <<< (7 * i).toUInt64), i + 1) := by
  have hb' : b < 0x80 := by rw [UInt8.lt_iff_toNat_lt]; exact hb
  have h9' : ¬ (i = maxLength - 1 ∧ 1 < b) := by
    rintro ⟨h, h1⟩
    have := h9 h
    rw [UInt8.lt_iff_toNat_lt] at h1
    exact absurd h1 (by simpa using this)
  rw [readFrom, if_neg (by simp [maxLength]; omega), if_pos hb', if_neg h9']

theorem readFrom_more {i : Nat} {word : UInt64} {b : UInt8} {bs : List UInt8} (hi : i < 10)
    (hb : 128 ≤ b.toNat) :
    readFrom i word (b :: bs) =
      readFrom (i + 1) (word ||| ((b &&& 0x7f).toUInt64 <<< (7 * i).toUInt64)) bs := by
  have hb' : ¬ b < 0x80 := by rw [UInt8.lt_iff_toNat_lt]; simpa using hb
  rw [readFrom, if_neg (by simp [maxLength]; omega), if_neg hb']

/-- The bit that says that more bytes follow is no part of the digit. -/
theorem low_digit (v : Nat) :
    ((v % 128 + 128).toUInt8 &&& 0x7f).toUInt64 = (v % 128).toUInt64 := by
  apply UInt64.toNat_inj.1
  have hb : (v % 128 + 128).toUInt8.toNat = v % 128 + 128 := by simp; omega
  have hmask : (v % 128 + 128) &&& 127 = v % 128 := by
    rw [Nat.and_two_pow_sub_one_eq_mod (v % 128 + 128) 7]
    omega
  simp only [UInt8.toNat_toUInt64, UInt8.toNat_and, hb, UInt64.toNat_ofNat']
  rw [show (127 : UInt8).toNat = 127 from rfl, hmask]
  omega

/-- The low seven bits and the bits above them make up a number, also when both are moved up. -/
theorem digits_or {v k : Nat} (hk : k + 7 < 64) (hv : v < 2 ^ 64) :
    ((v % 128).toUInt64 <<< k.toUInt64) ||| ((v / 128).toUInt64 <<< (k + 7).toUInt64) =
      v.toUInt64 <<< k.toUInt64 := by
  apply UInt64.toNat_inj.1
  have hsplit : v % 128 ||| (v / 128) <<< 7 = v := by
    rw [Nat.or_comm, ← Nat.shiftLeft_add_eq_or_of_lt (by omega : v % 128 < 2 ^ 7),
      Nat.shiftLeft_eq]
    omega
  have hshift : (v / 128) <<< (k + 7) = ((v / 128) <<< 7) <<< k := by
    rw [← Nat.shiftLeft_add, Nat.add_comm]
  have h1 : (v % 128) % 2 ^ 64 = v % 128 := Nat.mod_eq_of_lt (by omega)
  have h2 : (v / 128) % 2 ^ 64 = v / 128 := Nat.mod_eq_of_lt (by omega)
  have hk1 : k % 2 ^ 64 % 64 = k := by omega
  have hk2 : (k + 7) % 2 ^ 64 % 64 = k + 7 := by omega
  simp only [UInt64.toNat_or, UInt64.toNat_shiftLeft, UInt64.toNat_ofNat', h1, h2,
    hk1, hk2, Nat.mod_eq_of_lt hv]
  rw [hshift, ← Nat.or_mod_two_pow, ← Nat.shiftLeft_or_distrib, hsplit]

/-- Reading goes on after byte number `i` and collects the digits of `v` at their places. -/
theorem readFrom_write {v i : Nat} {word : UInt64} {rest : List UInt8} (hi : i < 10)
    (hv : v < 2 ^ (64 - 7 * i)) :
    readFrom i word (write v ++ rest) =
      .ok (word ||| (v.toUInt64 <<< (7 * i).toUInt64), i + (write v).length) := by
  induction v using Nat.strongRecOn generalizing i word with
  | ind v ih =>
    by_cases h : v < 128
    · have hb : v.toUInt8.toNat = v := by simp; omega
      have h9 : i = 9 → v.toUInt8.toNat ≤ 1 := by
        rintro rfl
        rw [hb]
        exact Nat.le_of_lt_succ hv
      have hword : v.toUInt8.toUInt64 = v.toUInt64 := by
        apply UInt64.toNat_inj.1
        simp only [UInt8.toNat_toUInt64, hb, UInt64.toNat_ofNat']
        omega
      rw [write_small h, List.singleton_append, readFrom_last hi (by omega) h9, hword,
        List.length_singleton]
    · have hv128 : 128 ≤ v := Nat.le_of_not_lt h
      have hi8 : i < 9 := by
        -- only two bits are left for the tenth byte
        by_contra hc
        have h2 : v < 2 ^ 1 := hv.trans_le (Nat.pow_le_pow_right (by omega) (by omega))
        omega
      have hb : 128 ≤ (v % 128 + 128).toUInt8.toNat := by simp; omega
      have hrest : v / 128 < 2 ^ (64 - 7 * (i + 1)) := by
        rw [show 64 - 7 * i = 64 - 7 * (i + 1) + 7 by omega, Nat.pow_add] at hv
        exact Nat.div_lt_of_lt_mul (by omega)
      have hv64 : v < 2 ^ 64 := hv.trans_le (Nat.pow_le_pow_right (by omega) (by omega))
      rw [write_large hv128, List.cons_append, readFrom_more hi hb, low_digit,
        ih (v / 128) (by omega) (by omega) hrest, UInt64.or_assoc, Nat.mul_add, Nat.mul_one,
        digits_or (by omega) hv64, List.length_cons, Nat.add_assoc, Nat.add_comm 1]

theorem reads_write {v m : Nat} (hv : v < 2 ^ 64) : read.Reads m (write v) v.toUInt64 := by
  intro rest _
  rw [read, readFrom_write (by omega) hv]
  simp

/-! ### What a reader of varints answers -/

theorem exists_cons_of_take_isPrefix {k : Nat} {b : UInt8} {bs bs' : List UInt8} (hk : 0 < k)
    (hp : (b :: bs).take k <+: bs') : ∃ cs, bs' = b :: cs ∧ bs.take (k - 1) <+: cs := by
  obtain ⟨j, rfl⟩ : ∃ j, k = j + 1 := ⟨k - 1, by omega⟩
  rw [List.take_succ_cons] at hp
  cases bs' with
  | nil => exact absurd hp (by simp)
  | cons c cs =>
    obtain ⟨rfl, hp'⟩ := List.cons_prefix_cons.1 hp
    exact ⟨cs, rfl, by simpa using hp'⟩

/-- A varint is read from its own bytes only: at least one, and none of those after it. -/
theorem readFrom_eq_ok {i n : Nat} {word u : UInt64} {bs : List UInt8}
    (h : readFrom i word bs = .ok (u, n)) :
    i < n ∧ n ≤ i + bs.length ∧
      ∀ bs', bs.take (n - i) <+: bs' → readFrom i word bs' = .ok (u, n) := by
  induction bs generalizing i word with
  | nil => cases h
  | cons b bs ih =>
    rw [readFrom] at h
    split_ifs at h with hmax hlast htop
    · -- the last byte
      cases h
      refine ⟨by omega, by simp, fun bs' hp => ?_⟩
      obtain ⟨cs, rfl, -⟩ := exists_cons_of_take_isPrefix (by omega) hp
      rw [readFrom, if_neg hmax, if_pos hlast, if_neg htop]
    · -- a byte with more to follow
      obtain ⟨hlt, hle, hloc⟩ := ih h
      refine ⟨by omega, by simp; omega, fun bs' hp => ?_⟩
      obtain ⟨cs, rfl, hp'⟩ := exists_cons_of_take_isPrefix (by omega) hp
      rw [readFrom, if_neg hmax, if_neg hlast]
      exact hloc cs (by rwa [show n - (i + 1) = n - i - 1 by omega])

theorem readFrom_eq_error {i : Nat} {word : UInt64} {bs : List UInt8} {e : Fault}
    (h : readFrom i word bs = .error e) : e = .truncated := by
  induction bs generalizing i word with
  | nil => cases h; rfl
  | cons b bs ih =>
    rw [readFrom] at h
    split_ifs at h
    · cases h; rfl
    · cases h; rfl
    · exact ih h

theorem eq_truncated {bs : List UInt8} {e : Fault} (h : read bs = .error e) : e = .truncated :=
  readFrom_eq_error h

theorem uses_read : read.Uses 1 := fun _ _ _ h => (readFrom_eq_ok h).1

/-- A digit at its place stays below the next place. -/
theorem or_digit_lt {i : Nat} {word : UInt64} {b : UInt8} (hi : i < 10)
    (hw : word.toNat < 128 ^ i) (hb : b.toNat < 128) :
    (word ||| (b.toUInt64 <<< (7 * i).toUInt64)).toNat < 128 ^ (i + 1) := by
  have hpow (j : Nat) : 128 ^ j = 2 ^ (7 * j) := by rw [Nat.pow_mul]
  have hplace : (7 * i) % 2 ^ 64 % 64 = 7 * i := by omega
  rw [hpow] at hw ⊢
  simp only [UInt64.toNat_or, UInt64.toNat_shiftLeft, UInt64.toNat_ofNat', UInt8.toNat_toUInt64,
    hplace]
  refine Nat.or_lt_two_pow (hw.trans_le (Nat.pow_le_pow_right (by omega) (by omega))) ?_
  refine (Nat.mod_le _ _).trans_lt ?_
  rw [Nat.shiftLeft_eq, Nat.mul_add, Nat.mul_one, Nat.pow_add, Nat.mul_comm]
  exact Nat.mul_lt_mul_of_pos_left hb (Nat.two_pow_pos _)

/-- Each byte that is read adds at most one digit. -/
theorem readFrom_lt {i n : Nat} {word u : UInt64} {bs : List UInt8} (hi : i ≤ 10)
    (hw : word.toNat < 128 ^ i) (h : readFrom i word bs = .ok (u, n)) : u.toNat < 128 ^ n := by
  induction bs generalizing i word with
  | nil => cases h
  | cons b bs ih =>
    rw [readFrom] at h
    split_ifs at h with hmax hlast htop
    · cases h
      exact or_digit_lt (Nat.lt_of_le_of_ne hi hmax) hw (UInt8.lt_iff_toNat_lt.1 hlast)
    · have hi' := Nat.lt_of_le_of_ne hi hmax
      refine ih hi' (or_digit_lt hi' hw ?_) h
      rw [UInt8.toNat_and]
      exact Nat.and_lt_two_pow _ (by decide : (0x7f : UInt8).toNat < 2 ^ 7)

/-- No number is read from fewer bytes than are written for it. -/
theorem length_write_le_of_read {u : UInt64} {n : Nat} {bs : List UInt8}
    (h : read bs = .ok (u, n)) : (write u.toNat).length ≤ n :=
  length_write_le (uses_read h) (readFrom_lt (Nat.zero_le _) (by simp) h)

theorem tracks_read (L L' : Nat) : read.Tracks L L' read where
  within bs u n h := by simpa using (readFrom_eq_ok h).2.1
  ok bs bs' u n _ hp h := (readFrom_eq_ok h).2.2 bs' hp
  error bs bs' e _ _ he h := absurd (eq_truncated h) he

end Varint

end Marshal
