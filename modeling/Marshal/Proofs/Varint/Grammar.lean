import Marshal.Proofs.Varint
import Mathlib.Algebra.BigOperators.Ring.List
import Mathlib.Tactic.Ring

/-!
# What is read as a varint

A varint is one to ten bytes, all but the last with their high bit set, whose digits add up to a
number of 64 bits.  `Varint.total` is the exact sum of the digits at their places and
`Varint.Spells` the grammar.  The reader collects the digits in a machine word by shifts that drop
what does not fit.  The main result `Varint.read_exactly` says that it accepts the grammar, yields
the exact sum, and calls every other input truncated.

The invariant of the loop is that after `i` bytes the word is below `2 ^ (7 * i)`, so that the next
digit falls on bits that are still free (`Varint.toNat_or_digit`).  It ends at the tenth byte, for
which a single bit is left: a digit there is `0` or `1`, or it is refused.
-/

namespace Marshal

namespace Varint

/-! ### The grammar -/

/-- The exact sum of the digits of the bytes, the low seven bits of each, at their places. -/
def total (bs : List UInt8) : Nat := (bs.mapIdx fun i b => b.toNat % 128 * 2 ^ (7 * i)).sum

/-- The first `n` bytes of an input go on up to the last of them, which ends them. -/
structure Ends (bs : List UInt8) (n : Nat) : Prop where
  pos : 1 ≤ n
  le_length : n ≤ bs.length
  more : ∀ b ∈ bs.take (n - 1), 0x80 ≤ b
  last : ∀ b ∈ bs[n - 1]?, b < 0x80

/-- The first `n` bytes of an input are a varint. -/
structure Spells (bs : List UInt8) (n : Nat) : Prop extends Ends bs n where
  le_maxLength : n ≤ maxLength
  fits : total (bs.take n) < 2 ^ 64

theorem total_nil : total [] = 0 := rfl

theorem total_cons (b : UInt8) (bs : List UInt8) :
    total (b :: bs) = b.toNat % 128 + 128 * total bs := by
  have hshift : (fun (i : Nat) (c : UInt8) => c.toNat % 128 * 2 ^ (7 * (i + 1))) =
      fun i c => 128 * (c.toNat % 128 * 2 ^ (7 * i)) := by
    funext i c
    rw [Nat.mul_add, Nat.pow_add]
    ring
  rw [total, total, List.mapIdx_cons, List.sum_cons, hshift, List.mapIdx_eq_zipIdx_map,
    List.mapIdx_eq_zipIdx_map, ← List.sum_map_mul_left]
  simp

theorem ends_of_lt {b : UInt8} {bs : List UInt8} {n : Nat} (hb : b < 0x80) :
    Ends (b :: bs) n ↔ n = 1 := by
  constructor
  · intro h
    by_contra hn
    have hpos := h.pos
    obtain ⟨k, rfl⟩ : ∃ k, n = k + 2 := ⟨n - 2, by omega⟩
    exact absurd (h.more b (by simp)) (UInt8.not_le.2 hb)
  · rintro rfl
    exact ⟨Nat.le_refl 1, by simp, by simp, by simpa using hb⟩

theorem ends_of_le {b : UInt8} {bs : List UInt8} {n : Nat} (hb : 0x80 ≤ b) :
    Ends (b :: bs) n ↔ ∃ k, n = k + 1 ∧ Ends bs k := by
  constructor
  · intro h
    have hpos := h.pos
    have hn : n ≠ 1 := by
      rintro rfl
      exact absurd (h.last b (by simp)) (UInt8.not_lt.2 hb)
    obtain ⟨k, rfl⟩ : ∃ k, n = k + 2 := ⟨n - 2, by omega⟩
    refine ⟨k + 1, rfl, by omega, by simpa using h.le_length, fun c hc => ?_, by simpa using h.last⟩
    exact h.more c (by simpa using .inr hc)
  · rintro ⟨k, rfl, h⟩
    have hpos := h.pos
    obtain ⟨j, rfl⟩ : ∃ j, k = j + 1 := ⟨k - 1, by omega⟩
    exact ⟨by omega, by simpa using h.le_length, by simpa using ⟨hb, h.more⟩, by simpa using h.last⟩

/-! ### One byte -/

/-- A digit that fits at its place is added to the digits below it. -/
theorem toNat_or_digit {i : Nat} {word : UInt64} {b : UInt8} (hi : i < maxLength)
    (hword : word.toNat < 2 ^ (7 * i)) (hfits : b.toNat * 2 ^ (7 * i) < 2 ^ 64) :
    (word ||| (b.toUInt64 <<< (7 * i).toUInt64)).toNat = word.toNat + b.toNat * 2 ^ (7 * i) := by
  have hplace : (7 * i) % 2 ^ 64 % 64 = 7 * i := by
    rw [maxLength] at hi
    omega
  simp only [UInt64.toNat_or, UInt64.toNat_shiftLeft, UInt64.toNat_ofNat', UInt8.toNat_toUInt64,
    hplace]
  rw [Nat.shiftLeft_eq, Nat.mod_eq_of_lt hfits, Nat.or_comm, ← Nat.shiftLeft_eq,
    ← Nat.shiftLeft_add_eq_or_of_lt hword, Nat.shiftLeft_eq, Nat.add_comm]

theorem toNat_low (b : UInt8) : (b &&& 0x7f).toNat = b.toNat % 128 := by
  rw [UInt8.toNat_and]
  exact Nat.and_two_pow_sub_one_eq_mod b.toNat 7

/-- A digit before the tenth has room for all its bits. -/
theorem digit_fits {i d : Nat} (hi : i < maxLength - 1) (hd : d < 128) :
    d * 2 ^ (7 * i) < 2 ^ (7 * (i + 1)) ∧ 2 ^ (7 * (i + 1)) ≤ 2 ^ 63 := by
  constructor
  · rw [Nat.mul_add, Nat.pow_add, Nat.mul_comm]
    exact Nat.mul_lt_mul_of_pos_left hd (Nat.two_pow_pos _)
  · rw [maxLength] at hi
    exact Nat.pow_le_pow_right (by decide) (by omega)

/-- What a byte before the tenth does to the word, if another byte follows: its digit is added, and
the word stays below the place of the next digit. -/
theorem toNat_or_low {i : Nat} {word : UInt64} (b : UInt8) (hi : i < maxLength - 1)
    (hword : word.toNat < 2 ^ (7 * i)) :
    (word ||| ((b &&& 0x7f).toUInt64 <<< (7 * i).toUInt64)).toNat =
        word.toNat + b.toNat % 128 * 2 ^ (7 * i) ∧
      (word ||| ((b &&& 0x7f).toUInt64 <<< (7 * i).toUInt64)).toNat < 2 ^ (7 * (i + 1)) := by
  have hd : b.toNat % 128 < 128 := Nat.mod_lt _ (by decide)
  obtain ⟨hlt, hle⟩ := digit_fits hi hd
  have hsum := toNat_or_digit (b := b &&& 0x7f) (by omega) hword (by rw [toNat_low]; omega)
  rw [toNat_low] at hsum
  refine ⟨hsum, ?_⟩
  rw [hsum]
  calc word.toNat + b.toNat % 128 * 2 ^ (7 * i)
      < 2 ^ (7 * i) + b.toNat % 128 * 2 ^ (7 * i) := by omega
    _ = 2 ^ (7 * i) * (b.toNat % 128 + 1) := by ring
    _ ≤ 2 ^ (7 * i) * 128 := Nat.mul_le_mul_left _ hd
    _ = 2 ^ (7 * (i + 1)) := by rw [Nat.mul_add, Nat.pow_add]

/-! ### The loop -/

/-- There is no eleventh byte. -/
theorem readFrom_maxLength (word : UInt64) (bs : List UInt8) :
    readFrom maxLength word bs = .error .truncated := by
  cases bs with
  | nil => rfl
  | cons b bs => rw [readFrom, if_pos rfl]

/-- At the last byte the word is complete. -/
theorem readFrom_eq_ok_of_lt {i n : Nat} {word v : UInt64} {b : UInt8} {bs : List UInt8}
    (hi : i < maxLength) (hword : word.toNat < 2 ^ (7 * i)) (hb : b < 0x80) :
    readFrom i word (b :: bs) = .ok (v, n) ↔
      n = i + 1 ∧ v.toNat = word.toNat + b.toNat * 2 ^ (7 * i) := by
  rw [readFrom, if_neg (Nat.ne_of_lt hi), if_pos hb]
  have hb' : b.toNat < 128 := UInt8.lt_iff_toNat_lt.1 hb
  by_cases htop : i = maxLength - 1 ∧ 1 < b
  · obtain ⟨rfl, h1⟩ := htop
    have h2 : 2 ≤ b.toNat := UInt8.lt_iff_toNat_lt.1 h1
    have hlt := v.toNat_lt
    rw [if_pos ⟨rfl, h1⟩]
    simp only [maxLength]
    constructor
    · intro h
      cases h
    · rintro ⟨-, hv⟩
      omega
  · rw [if_neg htop]
    have hfits : b.toNat * 2 ^ (7 * i) < 2 ^ 64 := by
      by_cases h9 : i = maxLength - 1
      · subst h9
        have h1 : b.toNat ≤ 1 :=
          Nat.le_of_not_lt fun h1 => htop ⟨rfl, UInt8.lt_iff_toNat_lt.2 h1⟩
        simp only [maxLength]
        omega
      · obtain ⟨hlt, hle⟩ := digit_fits (i := i) (by omega) hb'
        omega
    have hsum := toNat_or_digit hi hword hfits
    constructor
    · intro h
      cases h
      exact ⟨rfl, hsum⟩
    · rintro ⟨rfl, hv⟩
      rw [UInt64.toNat_inj.1 (hsum.trans hv.symm)]

/-- The loop goes on from byte number `i` up to the byte that ends the varint, and adds the digits
on the way. -/
theorem readFrom_eq_ok_iff {i n : Nat} {word v : UInt64} {bs : List UInt8} (hi : i < maxLength)
    (hword : word.toNat < 2 ^ (7 * i)) :
    readFrom i word bs = .ok (v, n) ↔
      ∃ k, n = i + k ∧ n ≤ maxLength ∧ Ends bs k ∧
        v.toNat = word.toNat + 2 ^ (7 * i) * total (bs.take k) := by
  induction bs generalizing i word with
  | nil =>
    constructor
    · intro h
      cases h
    · rintro ⟨k, -, -, h, -⟩
      exact absurd (h.pos.trans h.le_length) (by simp)
  | cons b bs ih =>
    by_cases hb : b < 0x80
    · rw [readFrom_eq_ok_of_lt hi hword hb]
      have hdigit : total [b] = b.toNat := by
        rw [total_cons, total_nil]
        exact Nat.mod_eq_of_lt (UInt8.lt_iff_toNat_lt.1 hb)
      constructor
      · rintro ⟨rfl, hv⟩
        exact ⟨1, rfl, hi, (ends_of_lt hb).2 rfl, by simpa [hdigit, Nat.mul_comm] using hv⟩
      · rintro ⟨k, rfl, -, hk, hv⟩
        obtain rfl := (ends_of_lt hb).1 hk
        exact ⟨rfl, by simpa [hdigit, Nat.mul_comm] using hv⟩
    · have hle : 0x80 ≤ b := UInt8.not_lt.1 hb
      rw [readFrom, if_neg (Nat.ne_of_lt hi), if_neg hb]
      by_cases h9 : i + 1 = maxLength
      · -- the tenth byte asks for an eleventh
        rw [h9, readFrom_maxLength]
        constructor
        · intro h
          cases h
        · rintro ⟨k, rfl, hn, hk, -⟩
          obtain ⟨j, rfl, hj⟩ := (ends_of_le hle).1 hk
          have := hj.pos
          omega
      · obtain ⟨hsum, hnext⟩ := toNat_or_low b (by omega) hword
        rw [ih (by omega) hnext, hsum]
        have hstep (k : Nat) : word.toNat + b.toNat % 128 * 2 ^ (7 * i) +
            2 ^ (7 * (i + 1)) * total (bs.take k) =
              word.toNat + 2 ^ (7 * i) * total ((b :: bs).take (k + 1)) := by
          rw [List.take_succ_cons, total_cons, Nat.mul_add 7 i 1, Nat.pow_add]
          ring
        constructor
        · rintro ⟨k, rfl, hn, hk, hv⟩
          exact ⟨k + 1, by omega, hn, (ends_of_le hle).2 ⟨k, rfl, hk⟩, hv.trans (hstep k)⟩
        · rintro ⟨k, rfl, hn, hk, hv⟩
          obtain ⟨j, rfl, hj⟩ := (ends_of_le hle).1 hk
          exact ⟨j, by omega, hn, hj, hv.trans (hstep j).symm⟩

/-- **A varint is read if and only if it is spelled**: the input starts with one to ten bytes, of
which the last one alone has its high bit clear, and the exact sum of their digits has 64 bits.
That sum is what is read.  Every other input is truncated. -/
theorem read_exactly (bs : List UInt8) :
    (∀ v n, read bs = .ok (v, n) ↔ Spells bs n ∧ v.toNat = total (bs.take n)) ∧
      (read bs = .error .truncated ↔ ∀ n, ¬ Spells bs n) := by
  have hok (v : UInt64) (n : Nat) :
      read bs = .ok (v, n) ↔ Spells bs n ∧ v.toNat = total (bs.take n) := by
    rw [read, readFrom_eq_ok_iff (by decide) (by decide)]
    constructor
    · rintro ⟨k, hk, hn, hends, hv⟩
      obtain rfl : n = k := by omega
      have hv' : v.toNat = total (bs.take n) := by simpa using hv
      exact ⟨⟨hends, hn, hv' ▸ v.toNat_lt⟩, hv'⟩
    · rintro ⟨h, hv⟩
      exact ⟨n, by omega, h.le_maxLength, h.toEnds, by simpa using hv⟩
  refine ⟨hok, ?_⟩
  constructor
  · intro he n hn
    have hv : (total (bs.take n)).toUInt64.toNat = total (bs.take n) := by
      rw [Nat.toUInt64_eq, UInt64.toNat_ofNat', Nat.mod_eq_of_lt hn.fits]
    have := (hok _ n).2 ⟨hn, hv⟩
    rw [he] at this
    cases this
  · intro hnone
    cases hr : read bs with
    | error e => rw [eq_truncated hr]
    | ok a => exact absurd ((hok a.1 a.2).1 hr).1 (hnone a.2)

end Varint

end Marshal
