import Marshal.Schema.Decode
import Marshal.Proofs.Wire
import Mathlib

/-!
# Decoding is local

A decoder sees all the input that is left, and the check of a length even counts it, but the answer
depends only on the part that was read.  `Decoder.Tracks` carries `Reader.Tracks` over to decoders:
the receiver is a part of the answer, also after a fault.  Each combinator keeps it, so each shape
has it once the declared types have (`Shape.decode_tracks`), and the declared types have it by
induction on the length of the input and the budget of references (`Schema.decodeNamed_tracks`).

The check of a length refuses a count that exceeds the number of bytes left.  It is made only where
each item uses a byte (`Shape.uses_decode`), so a count that it refuses could not have been read.
-/

namespace Marshal

/-! ### What a decoder answers -/

namespace Decoder

theorem ofReader_eq_ok {r : Reader Value} {v w : Value} {bs : List UInt8} {n : Nat} :
    ofReader r v bs = ⟨.ok n, w⟩ ↔ r bs = .ok (w, n) := by
  unfold ofReader
  split <;> rename_i h <;> simp [h, and_comm]

theorem ofReader_eq_error {r : Reader Value} {v w : Value} {bs : List UInt8} {e : Fault} :
    ofReader r v bs = ⟨.error e, w⟩ ↔ r bs = .error e ∧ v = w := by
  unfold ofReader
  split <;> rename_i h <;> simp [h]

theorem fresh_eq_ok {d : Decoder} {b w : Value} {bs : List UInt8} {n : Nat} :
    d.fresh b bs = .ok (w, n) ↔ d b bs = ⟨.ok n, w⟩ := by
  unfold fresh
  split <;> rename_i h <;> simp [h, and_comm]

theorem inPlace_of_parts {parts? : Value → Option (List Value)} {build : List Value → Value}
    {decoders : List Value → List Decoder} {v : Value} {vs ws : List Value} {bs : List UInt8}
    {result : Except Fault Nat} (hv : parts? v = some vs)
    (h : decodeSlots (decoders vs) vs bs = (result, ws)) :
    inPlace parts? build decoders v bs = ⟨result, build ws⟩ := by
  simp only [inPlace, hv, h]

theorem inPlace_of_none {parts? : Value → Option (List Value)} {build : List Value → Value}
    {decoders : List Value → List Decoder} {v : Value} {bs : List UInt8} (hv : parts? v = none) :
    inPlace parts? build decoders v bs = keep v bs := by
  simp only [inPlace, hv]

theorem inPlace_inv {parts? : Value → Option (List Value)} {build : List Value → Value}
    {decoders : List Value → List Decoder} {v w : Value} {bs : List UInt8}
    {result : Except Fault Nat} (h : inPlace parts? build decoders v bs = ⟨result, w⟩) :
    (∃ vs ws, parts? v = some vs ∧ decodeSlots (decoders vs) vs bs = (result, ws) ∧
      build ws = w) ∨ (parts? v = none ∧ keep v bs = ⟨result, w⟩) := by
  rcases hv : parts? v with _ | vs
  · exact .inr ⟨rfl, (inPlace_of_none hv).symm.trans h⟩
  · rcases hs : decodeSlots (decoders vs) vs bs with ⟨result', ws⟩
    rw [inPlace_of_parts hv hs, Outcome.mk.injEq] at h
    exact .inl ⟨vs, ws, rfl, h.1 ▸ hs, h.2⟩

theorem fresh_eq_error {d : Decoder} {b : Value} {bs : List UInt8} {e : Fault} :
    d.fresh b bs = .error e ↔ ∃ w, d b bs = ⟨.error e, w⟩ := by
  unfold fresh
  split <;> rename_i h <;> simp [h]

section Refill

variable {α : Type} {checked : Bool} {item : Reader α} {build : List α → Value} {v w : Value}
  {bs : List UInt8}

/-- A count that passes the check has the items collected. -/
theorem refill_of_pass {count : UInt64} {n : Nat} {result : Except Fault Nat} {as : Array α}
    (h : Varint.read bs = .ok (count, n)) (hc : checked = true → count.toNat ≤ (bs.drop n).length)
    (has : item.collect count.toNat (bs.drop n) n #[] = (result, as)) :
    refill checked item build v bs = ⟨result, build as.toList⟩ := by
  have hc' : ¬(checked = true ∧ (!atLeast count.toNat (bs.drop n)) = true) := by
    rintro ⟨hk, hn⟩
    have := atLeast_iff.2 (hc hk)
    simp_all
  simp only [refill, h, if_neg hc', has]

theorem refill_of_refuse {count : UInt64} {n : Nat} (h : Varint.read bs = .ok (count, n))
    (hc : ¬(checked = true → count.toNat ≤ (bs.drop n).length)) :
    refill checked item build v bs = ⟨.error .truncated, v⟩ := by
  obtain ⟨hk, hn⟩ := Classical.not_imp.1 hc
  have hc' : checked = true ∧ (!atLeast count.toNat (bs.drop n)) = true :=
    ⟨hk, by rw [Bool.not_eq_true', ← Bool.not_eq_true, atLeast_iff]; exact hn⟩
  simp only [refill, h, if_pos hc']

/-- A receiver is refilled unless the count is not read or refused. -/
theorem refill_inv {result : Except Fault Nat} (h : refill checked item build v bs = ⟨result, w⟩) :
    (∃ e, Varint.read bs = .error e ∧ result = .error e ∧ v = w) ∨
    (∃ count n, Varint.read bs = .ok (count, n) ∧ checked = true ∧
      (bs.drop n).length < count.toNat ∧ result = .error .truncated ∧ v = w) ∨
    ∃ count n as, Varint.read bs = .ok (count, n) ∧
      (checked = true → count.toNat ≤ (bs.drop n).length) ∧
      item.collect count.toNat (bs.drop n) n #[] = (result, as) ∧ build as.toList = w := by
  rcases hv : Varint.read bs with e | ⟨count, n⟩
  · simp only [refill, hv, Outcome.mk.injEq] at h
    exact .inl ⟨e, rfl, h.1.symm, h.2⟩
  · refine .inr ?_
    by_cases hc : checked = true → count.toNat ≤ (bs.drop n).length
    · rcases has : item.collect count.toNat (bs.drop n) n #[] with ⟨result', as⟩
      rw [refill_of_pass hv hc has, Outcome.mk.injEq] at h
      obtain ⟨rfl, hw⟩ := h
      exact .inr ⟨count, n, as, rfl, hc, has, hw⟩
    · rw [refill_of_refuse hv hc, Outcome.mk.injEq] at h
      obtain ⟨hk, hn⟩ := Classical.not_imp.1 hc
      exact .inl ⟨count, n, rfl, hk, Nat.lt_of_not_le hn, h.1.symm, h.2⟩

theorem refill_eq_ok {k : Nat} (h : refill checked item build v bs = ⟨.ok k, w⟩) :
    ∃ count n as, Varint.read bs = .ok (count, n) ∧
      (checked = true → count.toNat ≤ (bs.drop n).length) ∧
      item.collect count.toNat (bs.drop n) n #[] = (.ok k, as) ∧ build as.toList = w := by
  rcases refill_inv h with ⟨e, -, he, -⟩ | ⟨count, n, -, -, -, he, -⟩ | h
  · cases he
  · cases he
  · exact h

end Refill

end Decoder

namespace Reader

variable {α : Type} {r r' : Reader α}

theorem collect_succ_eq_ok {count used k : Nat} {bs : List UInt8} {got as : Array α} :
    r.collect (count + 1) bs used got = (.ok k, as) ↔
      ∃ a n, r bs = .ok (a, n) ∧
        r.collect count (bs.drop n) (used + n) (got.push a) = (.ok k, as) := by
  rw [collect]
  split <;> rename_i h <;> simp [h]

theorem collect_succ_eq_error {count used : Nat} {bs : List UInt8} {got as : Array α} {e : Fault} :
    r.collect (count + 1) bs used got = (.error e, as) ↔
      (r bs = .error e ∧ got = as) ∨
        ∃ a n, r bs = .ok (a, n) ∧
          r.collect count (bs.drop n) (used + n) (got.push a) = (.error e, as) := by
  rw [collect]
  split <;> rename_i h <;> simp [h]

/-- If each item uses at least `i` bytes, then `count` items use at least `count * i`. -/
theorem Uses.collect {i : Nat} (h : r.Uses i) {count used k : Nat} {bs : List UInt8}
    {got as : Array α} (hk : r.collect count bs used got = (.ok k, as)) :
    used + count * i ≤ k := by
  induction count generalizing bs used got with
  | zero => cases hk; simp
  | succ count ih =>
    obtain ⟨a, n, ha, hk⟩ := collect_succ_eq_ok.1 hk
    have := h ha
    have := ih hk
    rw [Nat.succ_mul]
    omega

namespace Tracks

variable {L L' : Nat}

theorem collect_within (h : r.Tracks L L' r') {count used k : Nat} {bs : List UInt8}
    {got as : Array α} (hk : r.collect count bs used got = (.ok k, as)) :
    used ≤ k ∧ k ≤ used + bs.length := by
  induction count generalizing bs used got with
  | zero => cases hk; simp
  | succ count ih =>
    obtain ⟨a, n, ha, hk⟩ := collect_succ_eq_ok.1 hk
    have hn := h.within ha
    have := ih hk
    rw [List.length_drop] at this
    omega

theorem collect_ok (h : r.Tracks L L' r') {count used k : Nat} {bs bs' : List UInt8}
    {got as : Array α} (hl : Level L L' bs bs') (hp : bs.take k <+: bs')
    (hk : r.collect count bs used got = (.ok (used + k), as)) :
    r'.collect count bs' used got = (.ok (used + k), as) := by
  induction count generalizing bs bs' used got k with
  | zero => exact hk
  | succ count ih =>
    obtain ⟨a, n, ha, hk⟩ := collect_succ_eq_ok.1 hk
    have hn := h.within ha
    obtain ⟨m, rfl⟩ : ∃ m, k = n + m := ⟨k - n, by have := h.collect_within hk; omega⟩
    have hp' := isPrefix_of_take_add hp
    have hl' := hl.drop hn (le_length_of_isPrefix hn hp')
    rw [← Nat.add_assoc] at hk ⊢
    exact collect_succ_eq_ok.2
      ⟨a, n, h.ok hl hp' ha, ih hl' (take_drop_isPrefix hn hp) hk⟩

theorem collect_error (h : r.Tracks L L' r') {count used : Nat} {bs bs' : List UInt8}
    {got as : Array α} {e : Fault} (hl : Level L L' bs bs') (hp : bs <+: bs')
    (he : e ≠ .truncated) (hk : r.collect count bs used got = (.error e, as)) :
    r'.collect count bs' used got = (.error e, as) := by
  induction count generalizing bs bs' used got with
  | zero => exact hk
  | succ count ih =>
    rcases collect_succ_eq_error.1 hk with ⟨ha, hg⟩ | ⟨a, n, ha, hk⟩
    · exact collect_succ_eq_error.2 (.inl ⟨h.error hl hp he ha, hg⟩)
    · have hn := h.within ha
      have hl' := hl.drop hn (hn.trans hp.length_le)
      exact collect_succ_eq_error.2
        (.inr ⟨a, n, h.ok hl ((List.take_prefix n bs).trans hp) ha, ih hl' (hp.drop n) hk⟩)

end Tracks

end Reader

/-! ### Decoders that track each other -/

namespace Decoder

/-- A decoder that succeeds has used at least `k` bytes. -/
def Uses (k : Nat) (d : Decoder) : Prop := ∀ ⦃v bs n w⦄, d v bs = ⟨.ok n, w⟩ → k ≤ n

/-- What the first decoder answers on an input, the second answers on an input that goes on like it
as far as the first decoder looked. -/
structure Tracks (L L' : Nat) (d d' : Decoder) : Prop where
  within : ∀ ⦃v bs n w⦄, d v bs = ⟨.ok n, w⟩ → n ≤ bs.length
  ok : ∀ ⦃v bs bs' n w⦄, Reader.Level L L' bs bs' → bs.take n <+: bs' →
    d v bs = ⟨.ok n, w⟩ → d' v bs' = ⟨.ok n, w⟩
  error : ∀ ⦃v bs bs' e w⦄, Reader.Level L L' bs bs' → bs <+: bs' → e ≠ .truncated →
    d v bs = ⟨.error e, w⟩ → d' v bs' = ⟨.error e, w⟩

variable {L L' : Nat} {d d' : Decoder}

theorem uses_ofReader {k : Nat} {r : Reader Value} (h : r.Uses k) : (ofReader r).Uses k :=
  fun _ _ _ _ hn => h (ofReader_eq_ok.1 hn)

theorem Uses.fresh {k : Nat} (h : d.Uses k) (b : Value) : (d.fresh b).Uses k :=
  fun _ _ _ hn => h (fresh_eq_ok.1 hn)

theorem tracks_keep (L L' : Nat) : keep.Tracks L L' keep where
  within v bs n w h := by cases h; exact Nat.zero_le _
  ok v bs bs' n w _ _ h := h
  error v bs bs' e w _ _ _ h := h

theorem tracks_ofReader {r r' : Reader Value} (h : r.Tracks L L' r') :
    (ofReader r).Tracks L L' (ofReader r') where
  within v bs n w hn := h.within (ofReader_eq_ok.1 hn)
  ok v bs bs' n w hl hp hn := ofReader_eq_ok.2 (h.ok hl hp (ofReader_eq_ok.1 hn))
  error v bs bs' e w hl hp he hn := by
    obtain ⟨hr, hv⟩ := ofReader_eq_error.1 hn
    exact ofReader_eq_error.2 ⟨h.error hl hp he hr, hv⟩

theorem Tracks.fresh (h : d.Tracks L L' d') (b : Value) :
    (d.fresh b).Tracks L L' (d'.fresh b) where
  within bs w n hn := h.within (fresh_eq_ok.1 hn)
  ok bs bs' w n hl hp hn := fresh_eq_ok.2 (h.ok hl hp (fresh_eq_ok.1 hn))
  error bs bs' e hl hp he hn := by
    obtain ⟨w, hw⟩ := fresh_eq_error.1 hn
    exact fresh_eq_error.2 ⟨w, h.error hl hp he hw⟩

theorem uses_refill {α : Type} (checked : Bool) (item : Reader α) (build : List α → Value) :
    (refill checked item build).Uses 1 := by
  intro v bs k w h
  obtain ⟨count, n, as, hn, -, hk, -⟩ := refill_eq_ok h
  have hle := Reader.Uses.collect (i := 0) (fun _ _ _ _ => Nat.zero_le _) hk
  have := Varint.uses_read hn
  omega

/-- The check of the count has no effect on an input that can be read. -/
theorem tracks_refill {α : Type} {checked : Bool} {item item' : Reader α}
    (build : List α → Value) (h : item.Tracks L L' item') (hu : checked = true → item.Uses 1) :
    (refill checked item build).Tracks L L' (refill checked item' build) where
  within v bs k w hk := by
    obtain ⟨count, n, as, hn, -, has, -⟩ := refill_eq_ok hk
    have hle := (Varint.tracks_read L L').within hn
    have := h.collect_within has
    rw [List.length_drop] at this
    omega
  ok v bs bs' k w hl hp hk := by
    obtain ⟨count, n, as, hn, -, has, rfl⟩ := refill_eq_ok hk
    have hle := (Varint.tracks_read L L').within hn
    have hin := h.collect_within has
    obtain ⟨m, rfl⟩ : ∃ m, k = n + m := ⟨k - n, by omega⟩
    have hp' := Reader.isPrefix_of_take_add hp
    have hl' := hl.drop hle (Reader.le_length_of_isPrefix hle hp')
    have hpd := Reader.take_drop_isPrefix hle hp
    refine refill_of_pass ((Varint.tracks_read L L').ok hl hp' hn) (fun hch => ?_)
      (h.collect_ok hl' hpd has)
    -- each item used a byte, and all these bytes are there
    have := (hu hch).collect has
    have := Reader.le_length_of_isPrefix (by omega) hpd
    omega
  error v bs bs' e w hl hp he hk := by
    rcases refill_inv hk with ⟨e', hn, he', rfl⟩ | ⟨count, n, -, -, -, he', -⟩ |
      ⟨count, n, as, hn, hc, has, rfl⟩
    · cases he'
      simp only [refill, (Varint.tracks_read L L').error hl hp he hn]
    · exact absurd (Except.error.inj he') he
    · have hle := (Varint.tracks_read L L').within hn
      have hl' := hl.drop hle (hle.trans hp.length_le)
      have hn' := (Varint.tracks_read L L').ok hl ((List.take_prefix n bs).trans hp) hn
      exact refill_of_pass hn' (fun hch => (hc hch).trans (hp.drop n).length_le)
        (h.collect_error hl' (hp.drop n) he has)

end Decoder

/-! ### Slots -/

section Slots

variable {d : Decoder} {ds ds' : List Decoder} {v : Value} {vs ws : List Value}
  {bs bs' : List UInt8}

theorem decodeSlots_cons_eq_ok {k : Nat} :
    decodeSlots (d :: ds) (v :: vs) bs = (.ok k, ws) ↔
      ∃ n m w ws', d v bs = ⟨.ok n, w⟩ ∧ decodeSlots ds vs (bs.drop n) = (.ok m, ws') ∧
        n + m = k ∧ w :: ws' = ws := by
  rw [decodeSlots]
  constructor
  · intro h
    split at h
    · cases h
    · rename_i n w hw
      split at h
      · cases h
      · rename_i m ws' hws
        cases h
        exact ⟨n, m, w, ws', hw, hws, rfl, rfl⟩
  · rintro ⟨n, m, w, ws', hw, hws, rfl, rfl⟩
    simp only [hw, hws]

theorem decodeSlots_cons_eq_error {e : Fault} :
    decodeSlots (d :: ds) (v :: vs) bs = (.error e, ws) ↔
      (∃ w, d v bs = ⟨.error e, w⟩ ∧ w :: vs = ws) ∨
        ∃ n w ws', d v bs = ⟨.ok n, w⟩ ∧ decodeSlots ds vs (bs.drop n) = (.error e, ws') ∧
          w :: ws' = ws := by
  rw [decodeSlots]
  constructor
  · intro h
    split at h
    · rename_i e' w hw
      cases h
      exact .inl ⟨w, hw, rfl⟩
    · rename_i n w hw
      split at h
      · rename_i e' ws' hws
        cases h
        exact .inr ⟨n, w, ws', hw, hws, rfl⟩
      · cases h
  · rintro (⟨w, hw, rfl⟩ | ⟨n, w, ws', hw, hws, rfl⟩)
    · simp only [hw]
    · simp only [hw, hws]

variable {L L' : Nat}

theorem decodeSlots_within (h : List.Forall₂ (Decoder.Tracks L L') ds ds') {k : Nat}
    (hk : decodeSlots ds vs bs = (.ok k, ws)) : k ≤ bs.length := by
  induction h generalizing vs ws bs k with
  | nil => cases hk; exact Nat.zero_le _
  | @cons d d' ds ds' hd _ ih =>
    cases vs with
    | nil => cases hk; exact Nat.zero_le _
    | cons v vs =>
      obtain ⟨n, m, w, ws', hw, hws, rfl, -⟩ := decodeSlots_cons_eq_ok.1 hk
      have := hd.within hw
      have := ih hws
      rw [List.length_drop] at this
      omega

theorem decodeSlots_ok (h : List.Forall₂ (Decoder.Tracks L L') ds ds') {k : Nat}
    (hl : Reader.Level L L' bs bs') (hp : bs.take k <+: bs')
    (hk : decodeSlots ds vs bs = (.ok k, ws)) : decodeSlots ds' vs bs' = (.ok k, ws) := by
  induction h generalizing vs ws bs bs' k with
  | nil => exact hk
  | @cons d d' ds ds' hd _ ih =>
    cases vs with
    | nil => exact hk
    | cons v vs =>
      obtain ⟨n, m, w, ws', hw, hws, rfl, rfl⟩ := decodeSlots_cons_eq_ok.1 hk
      have hn := hd.within hw
      have hp' := Reader.isPrefix_of_take_add hp
      have hl' := hl.drop hn (Reader.le_length_of_isPrefix hn hp')
      exact decodeSlots_cons_eq_ok.2
        ⟨n, m, w, ws', hd.ok hl hp' hw, ih hl' (Reader.take_drop_isPrefix hn hp) hws, rfl, rfl⟩

theorem decodeSlots_error (h : List.Forall₂ (Decoder.Tracks L L') ds ds') {e : Fault}
    (hl : Reader.Level L L' bs bs') (hp : bs <+: bs') (he : e ≠ .truncated)
    (hk : decodeSlots ds vs bs = (.error e, ws)) : decodeSlots ds' vs bs' = (.error e, ws) := by
  induction h generalizing vs ws bs bs' with
  | nil => exact hk
  | @cons d d' ds ds' hd _ ih =>
    cases vs with
    | nil => exact hk
    | cons v vs =>
      rcases decodeSlots_cons_eq_error.1 hk with ⟨w, hw, rfl⟩ | ⟨n, w, ws', hw, hws, rfl⟩
      · exact decodeSlots_cons_eq_error.2 (.inl ⟨w, hd.error hl hp he hw, rfl⟩)
      · have hn := hd.within hw
        have hl' := hl.drop hn (hn.trans hp.length_le)
        have hw' := hd.ok hl ((List.take_prefix n bs).trans hp) hw
        exact decodeSlots_cons_eq_error.2 (.inr ⟨n, w, ws', hw', ih hl' (hp.drop n) hws, rfl⟩)

theorem Decoder.tracks_inPlace {parts? : Value → Option (List Value)} {build : List Value → Value}
    {decoders decoders' : List Value → List Decoder}
    (h : ∀ vs, List.Forall₂ (Decoder.Tracks L L') (decoders vs) (decoders' vs)) :
    (inPlace parts? build decoders).Tracks L L' (inPlace parts? build decoders') where
  within v bs n w hn := by
    rcases inPlace_inv hn with ⟨vs, ws, -, hws, -⟩ | ⟨-, hn⟩
    · exact decodeSlots_within (h vs) hws
    · exact (tracks_keep L L').within hn
  ok v bs bs' n w hl hp hn := by
    rcases inPlace_inv hn with ⟨vs, ws, hv, hws, rfl⟩ | ⟨hv, hn⟩
    · exact inPlace_of_parts hv (decodeSlots_ok (h vs) hl hp hws)
    · exact (inPlace_of_none hv).trans hn
  error v bs bs' e w hl hp he hn := by
    rcases inPlace_inv hn with ⟨vs, ws, hv, hws, rfl⟩ | ⟨hv, hn⟩
    · exact inPlace_of_parts hv (decodeSlots_error (h vs) hl hp he hws)
    · exact (inPlace_of_none hv).trans hn

end Slots

/-! ### Bytes at once and one by one -/

theorem Decoder.fresh_ofReader (r : Reader Value) (b : Value) : (ofReader r).fresh b = r := by
  funext bs
  rcases h : r bs with e | ⟨a, n⟩
  · exact fresh_eq_error.2 ⟨b, ofReader_eq_error.2 ⟨h, rfl⟩⟩
  · exact fresh_eq_ok.2 (ofReader_eq_ok.2 h)

/-- A byte is read as it is. -/
theorem Scalar.read_byte (b : UInt8) (bs : List UInt8) :
    Scalar.byte.read none (b :: bs) = .ok (.datum (.int b.toNat), 1) := by
  have hb := b.toNat_lt
  have hmod : ((b.toNat + 256 * 0 : Nat) : Int) % 256 = b.toNat := by omega
  exact congrArg (fun i => Except.ok (Value.datum (.int i), 1)) hmod

/-- Bytes that are read one by one are those that are taken at once. -/
theorem collect_byte {count used : Nat} {bs : List UInt8} {got : Array Value}
    (h : count ≤ bs.length) :
    (Scalar.byte.read none).collect count bs used got =
      (.ok (used + count),
        got ++ ((bs.take count).map fun b => .datum (.int b.toNat)).toArray) := by
  induction count generalizing bs used got with
  | zero => simp [Reader.collect]
  | succ count ih =>
    cases bs with
    | nil => cases h
    | cons b bs =>
      refine Reader.collect_succ_eq_ok.2 ⟨_, 1, Scalar.read_byte b bs, ?_⟩
      rw [List.drop_one, List.tail_cons, ih (Nat.le_of_succ_le_succ h), Nat.add_right_comm,
        Nat.add_assoc]
      simp

/-- To read bytes at once is to read them one by one after a check of the count. -/
theorem ofReader_readBytes :
    Decoder.ofReader (readBytes.map Value.ofBytes) =
      Decoder.refill true (Scalar.byte.read none) .items := by
  funext v bs
  rcases h : Varint.read bs with e | ⟨count, n⟩
  · rw [Decoder.refill, h]
    exact Decoder.ofReader_eq_error.2
      ⟨Reader.map_eq_error.2 (Reader.andThen_eq_error.2 (.inl h)), rfl⟩
  · by_cases hc : count.toNat ≤ (bs.drop n).length
    · rw [Decoder.refill_of_pass h (fun _ => hc) (collect_byte hc)]
      refine Decoder.ofReader_eq_ok.2 (Reader.map_eq_ok.2 ⟨(bs.drop n).take count.toNat, ?_, ?_⟩)
      · exact Reader.andThen_eq_ok.2
          ⟨count, n, count.toNat, h, Reader.take_eq_ok.2 ⟨hc, rfl, rfl⟩, rfl⟩
      · simp [Value.ofBytes]
    · rw [Decoder.refill_of_refuse h fun hpass => hc (hpass rfl)]
      refine Decoder.ofReader_eq_error.2 ⟨Reader.map_eq_error.2 ?_, rfl⟩
      exact Reader.andThen_eq_error.2
        (.inr ⟨count, n, h, Reader.take_eq_error.2 ⟨Nat.lt_of_not_le hc, rfl⟩⟩)

/-- A sequence is refilled in either style. -/
theorem Shape.decode_seq (Γ : Schema) (named : String → Decoder) (style : Style) (s : Shape) :
    (Shape.seq s).decode Γ named style =
      .refill (decide (style = .expanded) && s.takesBytes)
        ((s.decode Γ named style).fresh (Γ.blank s)) .items := by
  rw [Shape.decode]
  split_ifs with hraw
  · obtain ⟨rfl, hs⟩ := hraw
    obtain rfl := Shape.isRawByte_iff.1 hs
    rw [ofReader_readBytes, Shape.decode, Decoder.fresh_ofReader]
    rfl
  · rfl

/-! ### Shapes and declared types -/

section Shapes

variable {Γ : Schema} {named named' : String → Decoder}

variable (Γ named) in
/-- The decoder of a shape that takes bytes uses one. -/
theorem Shape.uses_decode (style : Style) {s : Shape} (h : s.takesBytes = true) :
    (s.decode Γ named style).Uses 1 := by
  induction s with
  | scalar s cast =>
    cases cast with
    | none => exact Decoder.uses_ofReader ((Wire.uses_read _).map _)
    | some w => exact Decoder.uses_ofReader ((Wire.uses_read w).map _)
  | converted c w => exact Decoder.uses_ofReader ((Wire.uses_read w).map _)
  | delegate s ih => cases h
  | ref name => cases h
  | staged s ih => exact Decoder.uses_ofReader ((ih h).fresh _)
  | option s ih => exact Decoder.uses_ofReader (Reader.uses_byte.andThen _)
  | array size s ih => cases h
  | seq s ih =>
    rw [Shape.decode_seq]
    exact Decoder.uses_refill _ _ _
  | map keys key value ihk ihv => exact Decoder.uses_refill _ _ _

variable (Γ named) in
/-- An entry whose key or value takes bytes uses one. -/
theorem Shape.uses_entry (style : Style) {key value : Shape}
    (h : (key.takesBytes || value.takesBytes) = true) :
    (((key.decode Γ named style).fresh (Γ.blank key)).andThen fun k =>
      ((value.decode Γ named style).fresh (Γ.blank value)).map (k, ·)).Uses 1 := by
  rcases Bool.or_eq_true_iff.1 h with hk | hv
  · exact ((Shape.uses_decode Γ named style hk).fresh _).andThen _
  · exact Reader.Uses.andThen_right
      (fun k => ((Shape.uses_decode Γ named style hv).fresh _).map _) _

variable {L L' : Nat}

theorem Decoder.Tracks.forall₂_map {α : Type} {f g : α → Decoder}
    (h : ∀ a, (f a).Tracks L L' (g a)) (as : List α) :
    List.Forall₂ (Decoder.Tracks L L') (as.map f) (as.map g) :=
  List.forall₂_map_left_iff.2 (List.forall₂_map_right_iff.2 (List.forall₂_same.2 fun a _ => h a))

variable (h : ∀ name, (named name).Tracks L L' (named' name))
include h

/-- Decoders of declared types that track each other make the decoders of a shape do so. -/
theorem Shape.decode_tracks (style : Style) (s : Shape) :
    (s.decode Γ named style).Tracks L L' (s.decode Γ named' style) := by
  induction s generalizing style with
  | scalar s cast =>
    cases cast with
    | none => exact Decoder.tracks_ofReader ((Wire.tracks_read L L' _).map _)
    | some w => exact Decoder.tracks_ofReader ((Wire.tracks_read L L' w).map _)
  | converted c w => exact Decoder.tracks_ofReader ((Wire.tracks_read L L' w).map _)
  | delegate s ih => exact ih .generic
  | ref name => exact h name
  | staged s ih => exact Decoder.tracks_ofReader ((ih style).fresh _)
  | option s ih =>
    refine Decoder.tracks_ofReader ((Reader.tracks_byte L L').andThen fun presence => ?_)
    split_ifs
    · exact Reader.tracks_pure L L' _
    · exact ((ih style).fresh _).map _
  | array size s ih =>
    exact Decoder.tracks_inPlace fun vs => Decoder.Tracks.forall₂_map (fun _ => ih style) vs
  | seq s ih =>
    rw [Shape.decode_seq, Shape.decode_seq]
    refine Decoder.tracks_refill _ ((ih style).fresh _) fun hc => ?_
    rw [Bool.and_eq_true] at hc
    exact (Shape.uses_decode Γ named style hc.2).fresh _
  | map keys key value ihk ihv =>
    refine Decoder.tracks_refill _
      (((ihk style).fresh _).andThen fun k => ((ihv style).fresh _).map _) fun hc => ?_
    rw [Bool.and_eq_true] at hc
    exact Shape.uses_entry Γ named style hc.2

theorem Slot.decode_tracks (slot : Slot) :
    (slot.decode Γ named).Tracks L L' (slot.decode Γ named') := by
  unfold Slot.decode
  split_ifs
  · exact Decoder.tracks_keep L L'
  · exact Shape.decode_tracks h .expanded slot.shape

theorem Members.readMember_tracks (u : Members) (tag : UInt8) :
    (u.readMember Γ named tag).Tracks L L' (u.readMember Γ named' tag) := by
  unfold Members.readMember
  split
  · exact Reader.tracks_fail L L' _
  · exact ((Shape.decode_tracks h .expanded _).fresh _).map _

theorem Decl.decode_tracks (d : Decl) : (d.decode Γ named).Tracks L L' (d.decode Γ named') := by
  cases d with
  | record slots =>
    exact Decoder.tracks_inPlace fun _ => Decoder.Tracks.forall₂_map (Slot.decode_tracks h) slots
  | holder u =>
    refine Decoder.tracks_ofReader ((Reader.tracks_byte L L').andThen fun tag => ?_)
    split_ifs
    · exact Reader.tracks_pure L L' _
    · exact (Members.readMember_tracks h u tag).map _

end Shapes

/-! ### References -/

namespace Schema

variable {Γ : Schema} {limit budget : Nat} {name : String} {v : Value} {bs : List UInt8}

theorem decodeNamed_of_lt (h : bs.length < limit) :
    Γ.decodeNamed limit budget name v bs = Γ.decodeNamed bs.length Γ.decls.length name v bs := by
  rw [decodeNamed.eq_def, if_pos h]

theorem decodeNamed_of_find {d : Decl} (h : limit ≤ bs.length) (hd : Γ.find? name = some d) :
    Γ.decodeNamed limit (budget + 1) name v bs = d.decode Γ (Γ.decodeNamed limit budget) v bs := by
  rw [decodeNamed.eq_def, if_neg (Nat.not_lt.2 h)]
  simp only [hd]

/-- Without budget, or for a name that is not declared, the input counts as cut off. -/
theorem decodeNamed_of_fail (h : limit ≤ bs.length) (hb : budget = 0 ∨ Γ.find? name = none) :
    Γ.decodeNamed limit budget name v bs = ⟨.error .truncated, v⟩ := by
  rw [decodeNamed.eq_def, if_neg (Nat.not_lt.2 h)]
  rcases hb with rfl | hn
  · rfl
  · cases budget <;> simp only [hn]

/-- A decoder of a name tracks another if it does while no byte is used, and if the decoders of the
name track each other for all lower limits. -/
theorem decodeNamed_tracks_of {L L' budget budget' : Nat} {d d' : Decoder}
    (hlow : ∀ l < L, ∀ l', (Γ.decodeNamed l Γ.decls.length name).Tracks l l'
      (Γ.decodeNamed l' Γ.decls.length name))
    (hd : ∀ v bs, L ≤ bs.length → Γ.decodeNamed L budget name v bs = d v bs)
    (hd' : ∀ v bs, L' ≤ bs.length → Γ.decodeNamed L' budget' name v bs = d' v bs)
    (h : d.Tracks L L' d') :
    (Γ.decodeNamed L budget name).Tracks L L' (Γ.decodeNamed L' budget' name) where
  within v bs n w hn := by
    by_cases hL : bs.length < L
    · rw [decodeNamed_of_lt hL] at hn
      exact (hlow _ hL 0).within hn
    · rw [hd v bs (Nat.not_lt.1 hL)] at hn
      exact h.within hn
  ok v bs bs' n w hl hp hn := by
    have hlev : bs.length < L ↔ bs'.length < L' := by unfold Reader.Level at hl; omega
    by_cases hL : bs.length < L
    · rw [decodeNamed_of_lt hL] at hn
      rw [decodeNamed_of_lt (hlev.1 hL)]
      exact (hlow _ hL _).ok (Nat.add_comm _ _) hp hn
    · rw [hd v bs (Nat.not_lt.1 hL)] at hn
      rw [hd' v bs' (Nat.not_lt.1 (mt hlev.2 hL))]
      exact h.ok hl hp hn
  error v bs bs' e w hl hp he hn := by
    have hlev : bs.length < L ↔ bs'.length < L' := by unfold Reader.Level at hl; omega
    by_cases hL : bs.length < L
    · rw [decodeNamed_of_lt hL] at hn
      rw [decodeNamed_of_lt (hlev.1 hL)]
      exact (hlow _ hL _).error (Nat.add_comm _ _) hp he hn
    · rw [hd v bs (Nat.not_lt.1 hL)] at hn
      rw [hd' v bs' (Nat.not_lt.1 (mt hlev.2 hL))]
      exact h.error hl hp he hn

/-- The decoders of a name on two inputs that are level with their limits track each other. -/
theorem decodeNamed_tracks (Γ : Schema) (L L' budget : Nat) (name : String) :
    (Γ.decodeNamed L budget name).Tracks L L' (Γ.decodeNamed L' budget name) := by
  -- a reference uses up the budget; once a byte is used the limit is lower and the budget is full
  induction L using Nat.strong_induction_on generalizing L' budget name with
  | _ L ih =>
    have hlow name l (hl : l < L) l' := ih l hl l' Γ.decls.length name
    have hfail := Decoder.tracks_ofReader (Reader.tracks_fail L L' .truncated)
    induction budget generalizing name with
    | zero =>
      exact decodeNamed_tracks_of (hlow name) (fun v bs h => decodeNamed_of_fail h (.inl rfl))
        (fun v bs h => decodeNamed_of_fail h (.inl rfl)) hfail
    | succ budget ihb =>
      cases hd : Γ.find? name with
      | none =>
        exact decodeNamed_tracks_of (hlow name) (fun v bs h => decodeNamed_of_fail h (.inr hd))
          (fun v bs h => decodeNamed_of_fail h (.inr hd)) hfail
      | some d =>
        exact decodeNamed_tracks_of (hlow name) (fun v bs h => decodeNamed_of_find h hd)
          (fun v bs h => decodeNamed_of_find h hd) (Decl.decode_tracks ihb d)

/-- The decoders of a shape on any two inputs track each other. -/
theorem decode_tracks (Γ : Schema) (style : Style) (s : Shape) (L L' : Nat) :
    (s.decode Γ (Γ.decodeNamed L Γ.decls.length) style).Tracks L L'
      (s.decode Γ (Γ.decodeNamed L' Γ.decls.length) style) :=
  Shape.decode_tracks (Γ.decodeNamed_tracks L L' Γ.decls.length) style s

theorem decode_within {style : Style} {s : Shape} {r w : Value} {n : Nat}
    (h : Γ.decode style s r bs = ⟨.ok n, w⟩) : n ≤ bs.length :=
  (Γ.decode_tracks style s bs.length 0).within h

/-- A success depends only on the bytes that were used. -/
theorem decode_of_take_eq {style : Style} {s : Shape} {r w : Value} {n : Nat} {bs' : List UInt8}
    (h : Γ.decode style s r bs = ⟨.ok n, w⟩) (htake : bs'.take n = bs.take n) :
    Γ.decode style s r bs' = ⟨.ok n, w⟩ :=
  (Γ.decode_tracks style s bs.length bs'.length).ok (Nat.add_comm _ _)
    (htake ▸ List.take_prefix n bs') h

/-- A fault other than the end of the input stays, however the input goes on. -/
theorem decode_append_of_fault {style : Style} {s : Shape} {r w : Value} {e : Fault}
    (he : e ≠ .truncated) (h : Γ.decode style s r bs = ⟨.error e, w⟩) (x : List UInt8) :
    Γ.decode style s r (bs ++ x) = ⟨.error e, w⟩ :=
  (Γ.decode_tracks style s bs.length (bs ++ x).length).error (Nat.add_comm _ _)
    (List.prefix_append bs x) he h

/-- **Decoding is local.**  A success depends only on the bytes it used: any input that begins with
them is decoded to the same value with the same count.  A fault other than the end of the input
depends only on the input so far: it stays, and so does the receiver, however the input goes on. -/
theorem decode_local (Γ : Schema) (style : Style) (s : Shape) (r : Value) (bs : List UInt8) :
    (∀ n w, Γ.decode style s r bs = ⟨.ok n, w⟩ →
      n ≤ bs.length ∧ ∀ bs', bs'.take n = bs.take n → Γ.decode style s r bs' = ⟨.ok n, w⟩) ∧
    (∀ e w, e ≠ .truncated → Γ.decode style s r bs = ⟨.error e, w⟩ →
      ∀ x, Γ.decode style s r (bs ++ x) = ⟨.error e, w⟩) := by
  constructor
  · intro n w h
    exact ⟨decode_within h, fun bs' htake => decode_of_take_eq h htake⟩
  · intro e w he h x
    exact decode_append_of_fault he h x

/-- A number of a chain, with its mark and the rest of the chain. -/
def link (i : Int) (mark : Bool) (rest : Value) : Value :=
  .record [.datum (.int i), .datum (.bool mark), rest]

/-- Chains of numbers that go over the wire in 16 bits, each with a mark that does not.  The mark of
a blank link is set. -/
def chain : Schema where
  decls := [("Chain", .record [
    ⟨.name "value", .scalar (.int ⟨true, .w32⟩) (some (.var ⟨true, .w16⟩)), false, false⟩,
    ⟨.name "mark", .scalar .bool none, true, false⟩,
    ⟨.name "rest", .option (.delegate (.ref "Chain")), false, false⟩])]
  defaults := [("Chain", link 7 true .absent)]

/-- A chain of two numbers ends after five bytes, and a number of more than 16 bits is refused,
whatever comes after. -/
theorem decode_local_chain :
    (∀ bs', bs'.take 5 = [216, 4, 1, 3, 0] →
      chain.decode .expanded (.ref "Chain") (link 0 true .absent) bs' =
        ⟨.ok 5, link 300 true (.present (link (-2) true .absent))⟩) ∧
    (∀ x, chain.decode .expanded (.ref "Chain") (link 0 true .absent)
      ([216, 4, 1, 128, 128, 4] ++ x) = ⟨.error .outOfRange, link 300 true .absent⟩) := by
  have hok : chain.decode .expanded (.ref "Chain") (link 0 true .absent) [216, 4, 1, 3, 0, 77] =
      ⟨.ok 5, link 300 true (.present (link (-2) true .absent))⟩ := by cbv
  have herror : chain.decode .expanded (.ref "Chain") (link 0 true .absent)
      [216, 4, 1, 128, 128, 4] = ⟨.error .outOfRange, link 300 true .absent⟩ := by cbv
  exact ⟨((decode_local _ _ _ _ _).1 _ _ hok).2,
    (decode_local _ _ _ _ _).2 _ _ (by decide) herror⟩

end Schema

end Marshal
