import Marshal.Proofs.Offset
import Marshal.Proofs.Locality

/-!
# Nothing is out of range

The decoder with all its operations checked has an answer for every shape, receiver and input, and
it is that of the decoder without the checks (`Schema.walk_eq`).  So no index leaves the input, no
difference is below zero, no sum overflows and no shift is too wide, whatever the input holds.

The invariant is that the running offset stays within the input.  A walker at offset `n` follows a
decoder that starts from `bs.drop n`, and the decoder uses no more than there is
(`Walker.Follows`), so the offset behind is within the input again.  Each combinator keeps that.
-/

namespace Marshal

/-! ### Checked operations in range -/

section InRange

variable {bs : List UInt8} {n k : Nat}

theorem suffix?_of_le (h : n ≤ bs.length) : suffix? bs n = some (bs.drop n) := if_pos h

theorem left?_of_le (h : n ≤ bs.length) : left? bs n = some (bs.drop n).length := by
  rw [left?, if_pos h, List.length_drop]

theorem advance?_of_le (hbs : bs.length < offsetLimit) (h : n + k ≤ bs.length) :
    advance? bs n k = some (n + k) := if_pos ⟨h.trans_lt hbs, h⟩

theorem shiftUp?_of_lt {word : UInt64} (h : k < 64) : shiftUp? word k = some (word <<< k.toUInt64) :=
  if_pos h

theorem add_le_length (hn : n ≤ bs.length) (hk : k ≤ (bs.drop n).length) : n + k ≤ bs.length := by
  rw [List.length_drop] at hk
  omega

end InRange

/-! ### Scalars -/

/-- The bits of byte number `i` go up by at most 63 places, as the tenth byte is the last. -/
theorem Varint.scanFrom_eq {i : Nat} (hi : i ≤ maxLength) (word : UInt64) (bs : List UInt8) :
    scanFrom i (7 * i) word bs = some (readFrom i word bs) := by
  induction bs generalizing i word with
  | nil => rfl
  | cons b bs ih =>
    rw [scanFrom, readFrom]
    by_cases hmax : i = maxLength
    · rw [if_pos hmax, if_pos hmax]
    · have hlt : i < 10 := Nat.lt_of_le_of_ne hi hmax
      rw [if_neg hmax, if_neg hmax, shiftUp?_of_lt (by omega), shiftUp?_of_lt (by omega)]
      split_ifs
      · rfl
      · rfl
      · exact ih (i := i + 1) hlt _

theorem Varint.scan_eq (bs : List UInt8) : scan bs = some (read bs) :=
  scanFrom_eq (Nat.zero_le _) 0 bs

namespace Answer

variable {α β : Type} {bs : List UInt8} {x : Answer α} {r : Reader α}

theorem map_eq (h : x = some (r bs)) (f : α → β) : x.map f = some (r.map f bs) := by
  rw [h, Reader.map]
  rcases r bs with e | ⟨a, n⟩
  · rfl
  · rfl

theorem refine_eq (h : x = some (r bs)) (f : α → Except Fault β) :
    x.refine f = some (r.refine f bs) := by
  rw [h, Reader.refine]
  rcases r bs with e | ⟨a, n⟩
  · rfl
  · simp only [refine, andThen]
    rcases f a with e | b
    · rfl
    · rfl

end Answer

variable {bs : List UInt8}

/-- The end of the bytes is compared with the end of the input, after a sum that is checked. -/
theorem scanBytes_eq (hbs : bs.length < offsetLimit) : scanBytes bs = some (readBytes bs) := by
  rw [scanBytes, Varint.scan_eq, readBytes, Reader.andThen]
  rcases h : Varint.read bs with e | ⟨length, n⟩
  · rfl
  · have hn := (Varint.tracks_read 0 0).within h
    simp only [Answer.andThen, Reader.take, atLeast_iff, List.length_drop]
    by_cases hle : n + length.toNat ≤ bs.length
    · have hlt : n + length.toNat < offsetLimit := hle.trans_lt hbs
      have hle' : length.toNat ≤ bs.length - n := by omega
      rw [if_pos ⟨hlt, hle⟩, if_pos hle', List.drop_take, Nat.add_sub_cancel_left]
    · have hle' : ¬length.toNat ≤ bs.length - n := by omega
      rw [if_neg fun hc => hle hc.2, if_neg hle']

theorem Wire.scan_eq (w : Wire) (hbs : bs.length < offsetLimit) : w.scan bs = some (w.read bs) := by
  cases w with
  | fixed t | float f | bool => rfl
  | var t =>
    rw [Wire.scan, Wire.read]
    split_ifs
    · exact Answer.refine_eq (Varint.scan_eq bs) _
    · exact Answer.refine_eq (Varint.scan_eq bs) _
  | text => exact Answer.refine_eq (scanBytes_eq hbs) _

theorem Kind.scan_eq (k : Kind) (hbs : bs.length < offsetLimit) : k.scan bs = some (k.read bs) := by
  cases k with
  | wire w => exact Answer.map_eq (w.scan_eq hbs) _
  | bytes => exact Answer.map_eq (scanBytes_eq hbs) _

theorem Kind.tracks_read (k : Kind) (L L' : Nat) : k.read.Tracks L L' k.read := by
  cases k with
  | wire w => exact (Wire.tracks_read L L' w).map _
  | bytes => exact (tracks_readBytes L L').map _

theorem Scalar.scan_eq (s : Scalar) (cast : Option Wire) (hbs : bs.length < offsetLimit) :
    s.scan cast bs = some (s.read cast bs) := by
  cases cast with
  | none => exact Answer.map_eq (s.wire.scan_eq hbs) _
  | some w => exact Answer.map_eq (w.scan_eq hbs) _

/-! ### Scanners follow readers -/

/-- The answer of a reader that started `n` bytes into the input, with the offset in place of the
count. -/
def Reader.shifted {α : Type} (n : Nat) : Except Fault (α × Nat) → Except Fault (α × Nat)
  | .error e => .error e
  | .ok (a, k) => .ok (a, n + k)

/-- At each offset of an input the scanner answers as the reader does from there on. -/
def Scanner.Follows {α : Type} (s : Scanner α) (r : Reader α) : Prop :=
  ∀ ⦃bs n⦄, n ≤ bs.length → bs.length < offsetLimit →
    s bs n = some (Reader.shifted n (r (bs.drop n)))

namespace Scanner

variable {α β : Type} {s : Scanner α} {r r' : Reader α} {L L' : Nat}

theorem follows_pure (a : α) : (pure a).Follows (.pure a) := fun _ _ _ _ => rfl

/-- A function that is never out of range can be called at an offset within the input. -/
theorem follows_call {f : List UInt8 → Answer α}
    (h : ∀ bs, bs.length < offsetLimit → f bs = some (r bs)) (hr : r.Tracks L L' r') :
    (call f).Follows r := by
  intro bs n hn hbs
  simp only [call, suffix?_of_le hn, h _ (Reader.length_drop_lt hbs)]
  rcases ha : r (bs.drop n) with e | ⟨a, k⟩
  · rfl
  · simp [Answer.andThen, Reader.shifted, advance?_of_le hbs (add_le_length hn (hr.within ha))]

theorem follows_byte : byte.Follows Reader.byte :=
  follows_call (fun _ _ => rfl) (Reader.tracks_byte 0 0)

theorem Follows.map (h : s.Follows r) (f : α → β) : (s.map f).Follows (r.map f) := by
  intro bs n hn hbs
  rw [Scanner.map, h hn hbs, Reader.map]
  rcases r (bs.drop n) with e | ⟨a, k⟩
  · rfl
  · rfl

theorem Follows.andThen {next : α → Scanner β} {next' : α → Reader β} (h : s.Follows r)
    (hr : r.Tracks L L' r') (hnext : ∀ a, (next a).Follows (next' a)) :
    (s.andThen next).Follows (r.andThen next') := by
  intro bs n hn hbs
  rw [Scanner.andThen, h hn hbs, Reader.andThen]
  rcases ha : r (bs.drop n) with e | ⟨a, k⟩
  · rfl
  · -- the next scanner starts at an offset that is within the input again
    have hle := add_le_length hn (hr.within ha)
    simp only [Reader.shifted, Answer.andThen, hnext a hle hbs, List.drop_drop]
    rcases next' a (bs.drop (n + k)) with e | ⟨b, m⟩
    · rfl
    · simp [Nat.add_assoc]

/-- Items are scanned one after the other at offsets within the input. -/
theorem Follows.collect (h : s.Follows r) (hr : r.Tracks L L' r') (count : Nat) {base used : Nat}
    {got : Array α} (hn : base + used ≤ bs.length) (hbs : bs.length < offsetLimit) :
    s.collect count bs (base + used) got =
      some ((r.collect count (bs.drop (base + used)) used got).map (Except.map (base + ·)) id) := by
  induction count generalizing used got with
  | zero => rfl
  | succ count ih =>
    rw [Scanner.collect, h hn hbs, Reader.collect]
    rcases ha : r (bs.drop (base + used)) with e | ⟨a, k⟩
    · rfl
    · have hle := add_le_length hn (hr.within ha)
      rw [Nat.add_assoc] at hle
      simp only [Reader.shifted, List.drop_drop, Nat.add_assoc]
      exact ih hle

end Scanner

/-! ### Walkers follow decoders -/

/-- The answer of a decoder that started `n` bytes into the input, with the offset in place of the
count. -/
def Outcome.shifted (n : Nat) (o : Outcome) : Outcome := ⟨o.result.map (n + ·), o.receiver⟩

/-- At each offset of an input the walker answers as the decoder does from there on. -/
def Walker.Follows (w : Walker) (d : Decoder) : Prop :=
  ∀ ⦃v bs n⦄, n ≤ bs.length → bs.length < offsetLimit →
    w v bs n = some ((d v (bs.drop n)).shifted n)

namespace Walker

variable {w : Walker} {d d' : Decoder} {L L' : Nat}

theorem follows_keep : keep.Follows .keep := fun _ _ _ _ _ => rfl

theorem Follows.start (h : w.Follows d) {v : Value} (hbs : bs.length < offsetLimit) :
    w v bs 0 = some (d v bs) := by
  rw [h (Nat.zero_le _) hbs, List.drop_zero, Outcome.shifted]
  rcases d v bs with ⟨e | k, u⟩
  · rfl
  · simp [Except.map]

theorem follows_call {f : Value → List UInt8 → Option Outcome}
    (h : ∀ v bs, bs.length < offsetLimit → f v bs = some (d v bs)) (hd : d.Tracks L L' d') :
    (call f).Follows d := by
  intro v bs n hn hbs
  simp only [call, suffix?_of_le hn, h v _ (Reader.length_drop_lt hbs)]
  rcases hu : d v (bs.drop n) with ⟨e | k, u⟩
  · rfl
  · simp [Outcome.shifted, Except.map, advance?_of_le hbs (add_le_length hn (hd.within hu))]

theorem Follows.part (h : w.Follows d) (hd : d.Tracks L L' d') (style : Style) :
    (part style w).Follows d := by
  cases style with
  | expanded => exact h
  | generic => exact follows_call (fun _ _ hbs => h.start hbs) hd

theorem follows_ofScanner {s : Scanner Value} {r : Reader Value} (h : s.Follows r) :
    (ofScanner s).Follows (.ofReader r) := by
  intro v bs n hn hbs
  rw [ofScanner, h hn hbs, Decoder.ofReader]
  rcases r (bs.drop n) with e | ⟨a, k⟩
  · rfl
  · rfl

theorem Follows.fresh (h : w.Follows d) (blank : Value) :
    (w.fresh blank).Follows (d.fresh blank) := by
  intro bs n hn hbs
  rw [Walker.fresh, h hn hbs, Decoder.fresh]
  rcases d blank (bs.drop n) with ⟨e | k, u⟩
  · rfl
  · rfl

theorem follows_refill {α : Type} (checked : Bool) {item : Scanner α} {r r' : Reader α}
    (build : List α → Value) (h : item.Follows r) (hr : r.Tracks L L' r') :
    (refill checked item build).Follows (.refill checked r build) := by
  intro v bs n hn hbs
  have hcount := Scanner.follows_call (fun bs _ => Varint.scan_eq bs) (Varint.tracks_read 0 0)
  rw [refill, hcount hn hbs]
  rcases hv : Varint.read (bs.drop n) with e | ⟨count, k⟩
  · simp only [Decoder.refill, hv]
    rfl
  · have hle := add_le_length hn ((Varint.tracks_read 0 0).within hv)
    rcases has : r.collect count.toNat ((bs.drop n).drop k) k #[] with ⟨result, as⟩
    have hfill : fill item build count.toNat bs (n + k) =
        some ⟨result.map (n + ·), build as.toList⟩ := by
      rw [List.drop_drop] at has
      simp [fill, h.collect hr count.toNat hle hbs, has]
    simp only [Reader.shifted, left?_of_le hle, hfill, ← List.drop_drop]
    by_cases hc : checked = true → count.toNat ≤ ((bs.drop n).drop k).length
    · rw [Decoder.refill_of_pass hv hc has]
      cases checked with
      | false => rfl
      | true =>
        rw [if_pos rfl, if_neg (Nat.not_lt.2 (hc rfl))]
        rfl
    · rw [Decoder.refill_of_refuse hv hc]
      obtain ⟨rfl, hlt⟩ := Classical.not_imp.1 hc
      rw [if_pos rfl, if_pos (Nat.lt_of_not_le hlt)]
      rfl

/-- Slots are walked over one after the other at offsets within the input. -/
theorem slots_eq {ι : Type} {f : ι → Walker} {g g' : ι → Decoder} {xs : List ι}
    (h : ∀ x ∈ xs, (f x).Follows (g x)) (hg : ∀ x ∈ xs, (g x).Tracks L L' (g' x))
    (vs : List Value) {n : Nat} (hn : n ≤ bs.length) (hbs : bs.length < offsetLimit) :
    slots (xs.map f) vs bs n =
      some ((decodeSlots (xs.map g) vs (bs.drop n)).map (Except.map (n + ·)) id) := by
  induction xs generalizing vs n with
  | nil => rfl
  | cons x xs ih =>
    cases vs with
    | nil => rfl
    | cons v vs =>
      have hx := h x List.mem_cons_self (v := v) hn hbs
      rw [List.map_cons, List.map_cons, slots, decodeSlots, hx]
      rcases hu : g x v (bs.drop n) with ⟨e | k, u⟩
      · rfl
      · have hle := add_le_length hn ((hg x List.mem_cons_self).within hu)
        have hrest := ih (fun y hy => h y (List.mem_cons_of_mem _ hy))
          (fun y hy => hg y (List.mem_cons_of_mem _ hy)) vs hle
        simp only [Outcome.shifted, Except.map, hrest, List.drop_drop]
        rcases decodeSlots (xs.map g) vs (bs.drop (n + k)) with ⟨e | m, us⟩
        · rfl
        · simp [Except.map, Nat.add_assoc]

theorem follows_inPlace {ι : Type} {parts? : Value → Option (List Value)}
    {build : List Value → Value} {f : ι → Walker} {g g' : ι → Decoder} {xs : List Value → List ι}
    (h : ∀ vs, ∀ x ∈ xs vs, (f x).Follows (g x))
    (hg : ∀ vs, ∀ x ∈ xs vs, (g x).Tracks L L' (g' x)) :
    (inPlace parts? build fun vs => (xs vs).map f).Follows
      (.inPlace parts? build fun vs => (xs vs).map g) := by
  intro v bs n hn hbs
  rw [inPlace, Decoder.inPlace]
  cases parts? v with
  | none => rfl
  | some vs =>
    simp only [slots_eq (h vs) (hg vs) vs hn hbs]
    rfl

end Walker

/-! ### Shapes and declared types -/

section Shapes

variable {Γ : Schema} {named : String → Value → List UInt8 → Option Outcome}
  {decoders decoders' : String → Decoder} {L L' : Nat}

variable (h : ∀ name v bs, bs.length < offsetLimit → named name v bs = some (decoders name v bs))
  (ht : ∀ name, (decoders name).Tracks L L' (decoders' name))
include h ht

/-- Functions of declared types that are never out of range make the walker of a shape so. -/
theorem Shape.walk_follows (style : Style) (s : Shape) :
    (s.walk Γ named style).Follows (s.decode Γ decoders style) := by
  induction s generalizing style with
  | scalar s cast =>
    have hread : (s.read cast).Tracks 0 0 (s.read cast) := by
      cases cast with
      | none => exact (Wire.tracks_read 0 0 _).map _
      | some w => exact (Wire.tracks_read 0 0 w).map _
    exact Walker.follows_ofScanner (Scanner.follows_call (fun _ hbs => s.scan_eq cast hbs) hread)
  | converted c w =>
    exact Walker.follows_ofScanner (Scanner.follows_call
      (fun _ hbs => Answer.map_eq (w.scan_eq hbs) _) ((Wire.tracks_read 0 0 w).map _))
  | delegate s ih => exact (ih .generic).part (Shape.decode_tracks ht .generic s) .generic
  | ref name => exact Walker.follows_call (h name) (ht name)
  | staged s ih =>
    exact Walker.follows_ofScanner
      (((ih style).part (Shape.decode_tracks ht style s) style).fresh _)
  | option s ih =>
    refine Walker.follows_ofScanner
      (Scanner.follows_byte.andThen (Reader.tracks_byte 0 0) fun presence => ?_)
    split_ifs
    · exact Scanner.follows_pure _
    · exact (((ih style).part (Shape.decode_tracks ht style s) style).fresh _).map _
  | array size s ih =>
    have hs := Shape.decode_tracks (Γ := Γ) ht style s
    exact Walker.follows_inPlace (fun _ _ _ => (ih style).part hs style) fun _ _ _ => hs
  | seq s ih =>
    have hs := Shape.decode_tracks (Γ := Γ) ht style s
    rw [Shape.walk, Shape.decode]
    split_ifs
    · exact Walker.follows_ofScanner (Scanner.follows_call
        (fun _ hbs => Answer.map_eq (scanBytes_eq hbs) _) ((tracks_readBytes 0 0).map _))
    · exact Walker.follows_refill _ _ (((ih style).part hs style).fresh _) (hs.fresh _)
  | map keys key value ihk ihv =>
    have hk := Shape.decode_tracks (Γ := Γ) ht style key
    have hv := Shape.decode_tracks (Γ := Γ) ht style value
    refine Walker.follows_refill _ _ ?_ ((hk.fresh _).andThen fun k => (hv.fresh _).map _)
    exact (((ihk style).part hk style).fresh _).andThen (hk.fresh _) fun k =>
      (((ihv style).part hv style).fresh _).map _

theorem Slot.walk_follows (slot : Slot) :
    (slot.walk Γ named).Follows (slot.decode Γ decoders) := by
  unfold Slot.walk Slot.decode
  split_ifs
  · exact Walker.follows_keep
  · exact Shape.walk_follows h ht .expanded slot.shape

theorem Members.scanMember_eq (u : Members) (tag : UInt8) {bs : List UInt8}
    (hbs : bs.length < offsetLimit) :
    u.scanMember Γ named tag bs = some (u.readMember Γ decoders tag bs) := by
  unfold Members.scanMember Members.readMember
  cases u.member? tag.toNat with
  | none => rfl
  | some m =>
    refine Answer.map_eq ?_ _
    simp only [Walker.fresh, (Shape.walk_follows h ht .expanded m.shape).start hbs, Decoder.fresh]
    rcases m.shape.decode Γ decoders .expanded (Γ.blank m.shape) bs with ⟨e | k, v⟩
    · rfl
    · rfl

theorem Members.scanHeld_follows (u : Members) :
    (u.scanHeld Γ named).Follows (u.readHeld Γ decoders) := by
  refine Scanner.follows_byte.andThen (Reader.tracks_byte 0 0) fun tag => ?_
  split_ifs
  · exact Scanner.follows_pure _
  · exact (Scanner.follows_call (fun _ hbs => Members.scanMember_eq h ht u tag hbs)
      (Members.readMember_tracks ht u tag)).map _

theorem Decl.walk_eq (d : Decl) (v : Value) {bs : List UInt8} (hbs : bs.length < offsetLimit) :
    d.walk Γ named v bs = some (d.decode Γ decoders v bs) := by
  cases d with
  | record slots =>
    exact (Walker.follows_inPlace (fun _ slot _ => Slot.walk_follows h ht slot)
      fun _ slot _ => Slot.decode_tracks ht slot).start hbs
  | holder u => exact (Walker.follows_ofScanner (Members.scanHeld_follows h ht u)).start hbs

end Shapes

namespace Schema

theorem walkNamed_eq (Γ : Schema) (limit budget : Nat) (name : String) (v : Value)
    (bs : List UInt8) (hbs : bs.length < offsetLimit) :
    Γ.walkNamed limit budget name v bs = some (Γ.decodeNamed limit budget name v bs) := by
  -- a reference uses up the budget; once a byte is used the limit is lower and the budget is full
  induction limit using Nat.strong_induction_on generalizing budget name v bs with
  | _ limit ih =>
    induction budget generalizing name v bs with
    | zero =>
      rw [walkNamed.eq_def]
      split_ifs with hlt
      · rw [decodeNamed_of_lt hlt]
        exact ih bs.length hlt _ name v bs hbs
      · rw [decodeNamed_of_fail (Nat.not_lt.1 hlt) (.inl rfl)]
    | succ budget ihb =>
      rw [walkNamed.eq_def]
      split_ifs with hlt
      · rw [decodeNamed_of_lt hlt]
        exact ih bs.length hlt _ name v bs hbs
      · cases hd : Γ.find? name with
        | none => rw [decodeNamed_of_fail (Nat.not_lt.1 hlt) (.inr hd)]
        | some d =>
          rw [decodeNamed_of_find (Nat.not_lt.1 hlt) hd]
          exact Decl.walk_eq ihb (Γ.decodeNamed_tracks limit limit budget) d v hbs

theorem walk_eq (Γ : Schema) (style : Style) (s : Shape) (r : Value) {bs : List UInt8}
    (hbs : bs.length < offsetLimit) : Γ.walk style s r bs = some (Γ.decode style s r bs) :=
  (Shape.walk_follows (Γ.walkNamed_eq bs.length Γ.decls.length)
    (Γ.decodeNamed_tracks bs.length bs.length Γ.decls.length) style s).start hbs

/-- **Nothing is out of range.**  Decoding into any receiver of any shape, with every index,
difference, sum and shift checked, has an answer, which is that of the decoder, and it uses no more
bytes than the input has.  The same holds of the readers of all kinds of content, and the shifts in
the reader of varints are in range for inputs of any length. -/
theorem decode_in_range (Γ : Schema) (style : Style) (s : Shape) (r : Value) (bs : List UInt8)
    (hbs : bs.length < offsetLimit) :
    Γ.walk style s r bs = some (Γ.decode style s r bs) ∧
    (∀ n w, Γ.decode style s r bs = ⟨.ok n, w⟩ → n ≤ bs.length) ∧
    (∀ k : Kind, k.scan bs = some (k.read bs) ∧ ∀ c n, k.read bs = .ok (c, n) → n ≤ bs.length) ∧
    ∀ cs, Varint.scan cs = some (Varint.read cs) := by
  refine ⟨Γ.walk_eq style s r hbs, fun n w hw => decode_within hw, fun k => ?_, Varint.scan_eq⟩
  exact ⟨k.scan_eq hbs, fun c n hc => (k.tracks_read 0 0).within hc⟩

/-- Bytes whose length is said to be `2 ^ 64 - 1`, where one byte follows. -/
def farBytes : List UInt8 := [255, 255, 255, 255, 255, 255, 255, 255, 255, 1, 7]

/-- A length as large as there can be is a fault, and nothing is out of range on the way to it. -/
theorem decode_in_range_farBytes :
    farBytes.length < offsetLimit ∧
    Varint.scan farBytes = some (.ok (18446744073709551615, 10)) ∧
    Kind.bytes.scan farBytes = some (.error .truncated) ∧
    Schema.walk {} .expanded (.seq (.scalar .byte none)) (.items []) farBytes =
      some ⟨.error .truncated, .items []⟩ := by
  have hlt : farBytes.length < offsetLimit := by decide
  have hdecode : Schema.decode {} .expanded (.seq (.scalar .byte none)) (.items []) farBytes =
      ⟨.error .truncated, .items []⟩ := by cbv
  have hbytes : Kind.bytes.read farBytes = .error .truncated := by cbv
  have hlength : Varint.read farBytes = .ok (18446744073709551615, 10) := by cbv
  obtain ⟨hwalk, -, hkinds, hvarint⟩ :=
    decode_in_range {} .expanded (.seq (.scalar .byte none)) (.items []) farBytes hlt
  rw [hdecode] at hwalk
  exact ⟨hlt, hlength ▸ hvarint farBytes, hbytes ▸ (hkinds .bytes).1, hwalk⟩

end Schema

end Marshal
