import Marshal.Proofs.Receiver

/-!
# What a failure leaves behind

A decoder that fails does not undo what it did.  What it leaves in the receiver depends on where it
failed and on how the parts around that place are decoded:

* what is replaced when it is complete is unchanged;
* a sequence or a map is unchanged if its length is refused, and otherwise it holds what was decoded
  before the fault;
* the slots of a record and the items of an array are decoded up to the fault and unchanged after
  it, and the one that failed is as its own failure left it.

`Schema.Leaves` has a rule for each way to fail, and `Schema.decode_eq_error_iff` says that these are
all, each with its fault and with the receiver that is left.  The rules go down to the part that is
decoded in place and fails.  What is decoded from a blank value is discarded when it fails, so of
such a part only the fault counts.
-/

namespace Marshal

/-! ### Maps from their entries -/

namespace Entries

/-- The first of the keys that count as the given one. -/
def key? (cmp : Value → Value → Ordering) (k : Value) : Entries → Option Value
  | [] => none
  | (l, _) :: es => if cmp k l = .eq then some l else key? cmp k es

/-- The map `m` is made of the entries `es`, put in one after the other: its keys are in order, and
of those that count as the same it has the first, with the last value that came with any of them. -/
structure MadeOf (cmp : Value → Value → Ordering) (m es : Entries) : Prop where
  ordered : m.Pairwise (Before cmp)
  mem : ∀ k v, (k, v) ∈ m ↔ key? cmp k es = some k ∧ find? cmp k es.reverse = some v

variable {cmp : Value → Value → Ordering} {k l v : Value} {m es : Entries}

theorem key?_append (es fs : Entries) :
    key? cmp k (es ++ fs) = (key? cmp k es).or (key? cmp k fs) := by
  induction es with
  | nil => rfl
  | cons e es ih =>
    rw [List.cons_append, key?, key?, ih]
    split_ifs <;> rfl

theorem ofList_append_singleton (es : Entries) (e : Value × Value) :
    ofList (es ++ [e]) cmp = insert cmp e.1 e.2 (ofList es cmp) := by
  simp [ofList]

theorem key?_eq_none (h : ∀ e ∈ m, cmp k e.1 ≠ .eq) : key? cmp k m = none := by
  induction m with
  | nil => rfl
  | cons e m ih =>
    rw [key?, if_neg (h e List.mem_cons_self), ih fun f hf => h f (List.mem_cons_of_mem _ hf)]

variable [Std.TransCmp cmp]

/-- A key that is put into a map has its new value there, and the others have theirs. -/
theorem find?_insert : find? cmp l (insert cmp k v m) =
    if cmp l k = .eq then some v else find? cmp l m := by
  induction m with
  | nil => rfl
  | cons e m ih =>
    obtain ⟨k', v'⟩ := e
    rw [insert]
    split
    · rw [find?]
    · rename_i hc
      rw [find?, find?, Std.TransCmp.congr_right hc]
      split_ifs <;> rfl
    · rename_i hc
      rw [find?, find?, ih]
      by_cases hl : cmp l k' = .eq
      · have hne : cmp l k ≠ .eq := by
          rw [Std.TransCmp.congr_left hl, Std.OrientedCmp.lt_of_gt hc]
          simp
        simp [hl, hne]
      · simp [hl]

/-- A key that is put into a map is there, unless there is one that counts as the same. -/
theorem key?_insert (h : m.Pairwise (Before cmp)) : key? cmp l (insert cmp k v m) =
    if cmp l k = .eq then (key? cmp l m).or (some k) else key? cmp l m := by
  induction m with
  | nil => rfl
  | cons e m ih =>
    obtain ⟨k', v'⟩ := e
    obtain ⟨hk', hm⟩ := List.pairwise_cons.1 h
    rw [insert]
    split
    · -- the key is before all of the map
      rename_i hc
      rw [key?]
      split_ifs with hl
      · rw [key?_eq_none, Option.none_or]
        intro f hf
        have hlt : cmp k f.1 = .lt := by
          rcases List.mem_cons.1 hf with rfl | hf
          · exact hc
          · exact Std.TransCmp.lt_trans hc (hk' f hf)
        rw [Std.TransCmp.congr_left hl, hlt]
        simp
      · rfl
    · rename_i hc
      rw [key?, key?, Std.TransCmp.congr_right hc]
      split_ifs <;> rfl
    · rename_i hc
      rw [key?, key?, ih hm]
      by_cases hl : cmp l k' = .eq
      · have hne : cmp l k ≠ .eq := by
          rw [Std.TransCmp.congr_left hl, Std.OrientedCmp.lt_of_gt hc]
          simp
        simp [hl, hne]
      · simp [hl]

theorem find?_ofList (es : Entries) (k : Value) :
    find? cmp k (ofList es cmp) = find? cmp k es.reverse := by
  induction es using List.reverseRecOn with
  | nil => rfl
  | append_singleton es e ih => rw [ofList_append_singleton, find?_insert, ih, List.reverse_concat,
      find?]

theorem key?_ofList (es : Entries) (k : Value) : key? cmp k (ofList es cmp) = key? cmp k es := by
  induction es using List.reverseRecOn with
  | nil => rfl
  | append_singleton es e ih =>
    rw [ofList_append_singleton, key?_insert (pairwise_ofList es), ih, key?_append, key?, key?]
    split_ifs
    · rfl
    · rw [Option.or_none]

/-- The entries of a map whose keys are apart are those that are looked up. -/
theorem mem_iff (h : m.Pairwise (Apart cmp)) :
    (k, v) ∈ m ↔ key? cmp k m = some k ∧ find? cmp k m = some v := by
  induction m with
  | nil => simp [key?]
  | cons e m ih =>
    obtain ⟨l, w⟩ := e
    obtain ⟨hl, hm⟩ := List.pairwise_cons.1 h
    rw [List.mem_cons, key?, find?, ih hm, Prod.mk.injEq]
    by_cases hc : cmp k l = .eq
    · have hout : (k, v) ∉ m := fun hmem => hl _ hmem (Std.OrientedCmp.eq_symm hc)
      rw [← ih hm]
      simp [hc, hout, eq_comm]
    · have hne : k ≠ l := fun heq => hc (heq ▸ Std.ReflCmp.compare_self)
      simp [hc, hne]

theorem ofList_madeOf (es : Entries) : MadeOf cmp (ofList es cmp) es where
  ordered := pairwise_ofList es
  mem k v := by rw [mem_iff (pairwise_apart (pairwise_ofList es)), key?_ofList, find?_ofList]

/-- There is one map that is made of given entries. -/
theorem madeOf_iff : MadeOf cmp m es ↔ m = ofList es cmp := by
  refine ⟨fun h => ?_, fun h => h ▸ ofList_madeOf es⟩
  have h' : MadeOf cmp (ofList es cmp) es := ofList_madeOf es
  exact eq_of_mem_iff h.ordered h'.ordered fun e => (h.mem e.1 e.2).trans (h'.mem e.1 e.2).symm

end Entries

/-! ### Items before a fault -/

/-- The reader reads `as` one after the other, in `n` bytes. -/
inductive Reader.Yields {α : Type} (r : Reader α) : List UInt8 → Nat → List α → Prop where
  | nil {bs} : Yields r bs 0 []
  | cons {bs n m a as} (ha : r bs = .ok (a, n)) (has : Yields r (bs.drop n) m as) :
      Yields r bs (n + m) (a :: as)

/-- The length in front of a sequence or a map is not read, or if it is checked it exceeds the number
of bytes left. -/
inductive LengthFault (checked : Prop) (bs : List UInt8) : Fault → Prop where
  | unreadable {e} (h : Varint.read bs = .error e) : LengthFault checked bs e
  | exceeds {count n} (h : Varint.read bs = .ok (count, n)) (hc : checked)
      (hlt : (bs.drop n).length < count.toNat) : LengthFault checked bs .truncated

/-- The length is accepted, fewer items than it says are read, and the next one fails. -/
inductive ItemFault {α : Type} (checked : Prop) (item : Reader α) (bs : List UInt8) (e : Fault)
    (as : List α) : Prop where
  | intro {count n m} (h : Varint.read bs = .ok (count, n))
      (hc : checked → count.toNat ≤ (bs.drop n).length) (hlt : as.length < count.toNat)
      (has : item.Yields (bs.drop n) m as) (he : item (bs.drop (n + m)) = .error e) :
      ItemFault checked item bs e as

theorem Reader.collect_eq_error_iff {α : Type} {r : Reader α} {count used : Nat} {bs : List UInt8}
    {got as : Array α} {e : Fault} :
    r.collect count bs used got = (.error e, as) ↔
      ∃ n us, us.length < count ∧ r.Yields bs n us ∧ r (bs.drop n) = .error e ∧
        got ++ us.toArray = as := by
  induction count generalizing bs used got with
  | zero => simp [collect]
  | succ count ih =>
    rw [collect_succ_eq_error]
    constructor
    · rintro (⟨he, rfl⟩ | ⟨a, n, ha, h⟩)
      · exact ⟨0, [], Nat.succ_pos _, .nil, he, by simp⟩
      · obtain ⟨m, us, hlt, hus, he, rfl⟩ := ih.1 h
        exact ⟨n + m, a :: us, Nat.succ_lt_succ hlt, .cons ha hus, List.drop_drop ▸ he, by simp⟩
    · rintro ⟨n, us, hlt, hus, he, rfl⟩
      cases hus with
      | nil => exact .inl ⟨he, by simp⟩
      | @cons _ n m a us ha hus =>
        refine .inr ⟨a, n, ha, ih.2 ⟨m, us, Nat.lt_of_succ_lt_succ hlt, hus, ?_, by simp⟩⟩
        rw [List.drop_drop]
        exact he

/-- A receiver that is refilled keeps what it held if the length is at fault, and otherwise it has
the items before the one that fails. -/
theorem Decoder.refill_eq_error_iff {α : Type} {checked : Bool} {item : Reader α}
    {build : List α → Value} {v w : Value} {bs : List UInt8} {e : Fault} :
    refill checked item build v bs = ⟨.error e, w⟩ ↔
      (LengthFault (checked = true) bs e ∧ v = w) ∨
        ∃ as, ItemFault (checked = true) item bs e as ∧ build as = w := by
  constructor
  · intro h
    rcases refill_inv h with ⟨e', hn, he, rfl⟩ | ⟨count, n, hn, hc, hlt, he, rfl⟩ |
      ⟨count, n, as, hn, hc, has, rfl⟩
    · cases he
      exact .inl ⟨.unreadable hn, rfl⟩
    · cases he
      exact .inl ⟨.exceeds hn hc hlt, rfl⟩
    · obtain ⟨m, us, hlt, hus, he, rfl⟩ := Reader.collect_eq_error_iff.1 has
      rw [List.drop_drop] at he
      exact .inr ⟨us, ⟨hn, hc, hlt, hus, he⟩, by simp⟩
  · rintro (⟨hn | ⟨hn, hc, hlt⟩, rfl⟩ | ⟨as, ⟨hn, hc, hlt, has, he⟩, rfl⟩)
    · simp only [refill, hn]
    · exact refill_of_refuse hn fun hpass => Nat.not_le.2 hlt (hpass hc)
    · rw [← List.drop_drop] at he
      exact refill_of_pass hn hc
        (Reader.collect_eq_error_iff.2 ⟨_, as, hlt, has, he, Array.empty_append⟩)

/-- A byte that announces a content is missing, or it is not `0` and the content is at fault. -/
theorem Reader.announced_eq_error {α β : Type} {a : β} {f : α → β} {content : UInt8 → Reader α}
    {bs : List UInt8} {e : Fault} :
    Reader.byte.andThen (fun b => if b = 0 then .pure a else (content b).map f) bs = .error e ↔
      bs = [] ∧ e = .truncated ∨ ∃ b cs, bs = b :: cs ∧ b ≠ 0 ∧ content b cs = .error e := by
  rw [andThen_eq_error]
  cases bs with
  | nil => simp [Reader.byte, eq_comm]
  | cons b cs =>
    by_cases hb : b = 0
    · simp [Reader.byte, Reader.pure, hb]
    · simp [Reader.byte, map_eq_error, hb]

/-! ### Slots before a fault -/

theorem mem_zip_middle {α β : Type} {as as' : List α} {bs bs' : List β} {a : α} {b : β}
    (h : as.length = bs.length) : (a, b) ∈ (as ++ a :: as').zip (bs ++ b :: bs') := by
  rw [List.zip_append h]
  exact List.mem_append_right _ List.mem_cons_self

/-- The decoders decode the values `vs` to `ws`, in `n` bytes. -/
inductive Decoder.Fills : List Decoder → List Value → List UInt8 → Nat → List Value → Prop where
  | nil {bs} : Fills [] [] bs 0 []
  | cons {d ds v vs bs n m w ws} (hd : d v bs = ⟨.ok n, w⟩) (hds : Fills ds vs (bs.drop n) m ws) :
      Fills (d :: ds) (v :: vs) bs (n + m) (w :: ws)

namespace Decoder

theorem Fills.length_eq {ds : List Decoder} {vs ws : List Value} {bs : List UInt8} {n : Nat}
    (h : Fills ds vs bs n ws) : ds.length = vs.length := by
  induction h with
  | nil => rfl
  | cons _ _ ih => exact congrArg Nat.succ ih

/-- A fault is that of the first slot that fails: those before it are decoded, and those after it
are not touched. -/
theorem Fills.decodeSlots_eq_error {ds ds' : List Decoder} {d : Decoder} {vs vs' ws : List Value}
    {v w : Value} {bs : List UInt8} {n : Nat} {e : Fault} (h : Fills ds vs bs n ws)
    (hd : d v (bs.drop n) = ⟨.error e, w⟩) :
    decodeSlots (ds ++ d :: ds') (vs ++ v :: vs') bs = (.error e, ws ++ w :: vs') := by
  induction h with
  | nil => exact decodeSlots_cons_eq_error.2 (.inl ⟨w, hd, rfl⟩)
  | cons hfirst _ ih =>
    rw [← List.drop_drop] at hd
    exact decodeSlots_cons_eq_error.2 (.inr ⟨_, _, _, hfirst, ih hd, rfl⟩)

theorem exists_fills_of_eq_error {ι : Type} {f : ι → Decoder} {xs : List ι} {vs us : List Value}
    {bs : List UInt8} {e : Fault} (h : decodeSlots (xs.map f) vs bs = (.error e, us)) :
    ∃ ys x ys' before v after n ws w, xs = ys ++ x :: ys' ∧ vs = before ++ v :: after ∧
      Fills (ys.map f) before bs n ws ∧ f x v (bs.drop n) = ⟨.error e, w⟩ ∧
      us = ws ++ w :: after := by
  induction xs generalizing vs us bs with
  | nil => cases h
  | cons x xs ih =>
    cases vs with
    | nil => cases h
    | cons v vs =>
      rcases decodeSlots_cons_eq_error.1 h with ⟨w, hw, rfl⟩ | ⟨k, u, us, hu, hus, rfl⟩
      · exact ⟨[], x, xs, [], v, vs, 0, [], w, rfl, rfl, .nil, hw, rfl⟩
      · obtain ⟨ys, y, ys', before, v', after, n, ws, w, rfl, rfl, hws, hw, rfl⟩ := ih hus
        rw [List.drop_drop] at hw
        exact ⟨x :: ys, y, ys', v :: before, v', after, k + n, u :: ws, w, rfl, rfl,
          .cons hu hws, hw, rfl⟩

end Decoder

/-! ### The ways to fail -/

namespace Schema

/-- Decoding a value of a shape into `r` fails, and leaves the receiver as `w`. -/
inductive Leaves (Γ : Schema) : Style → Shape → (r : Value) → List UInt8 → Fault → (w : Value) → Prop
  where
  | scalar {style s cast r bs e} (h : (cast.getD s.wire).read bs = .error e) :
      Leaves Γ style (.scalar s cast) r bs e r
  | converted {style c w r bs e} (h : w.read bs = .error e) :
      Leaves Γ style (.converted c w) r bs e r
  | delegate {style s r bs e w} (h : Leaves Γ .generic s r bs e w) :
      Leaves Γ style (.delegate s) r bs e w
  | staged {style s r bs e} (h : Γ.decodeFresh style s bs = .error e) :
      Leaves Γ style (.staged s) r bs e r
  | presence {style s r} : Leaves Γ style (.option s) r [] .truncated r
  | content {style s r b bs e} (hb : b ≠ 0) (h : Γ.decodeFresh style s bs = .error e) :
      Leaves Γ style (.option s) r (b :: bs) e r
  /-- Bytes that are read at once are stored at once. -/
  | bytes {s r bs e} (hs : s.isRawByte = true) (h : readBytes bs = .error e) :
      Leaves Γ .expanded (.seq s) r bs e r
  | itemCount {style s r bs e} (hs : style = .expanded → s.isRawByte = false)
      (h : LengthFault (style = .expanded ∧ s.takesBytes = true) bs e) :
      Leaves Γ style (.seq s) r bs e r
  | item {style s r bs e vs} (hs : style = .expanded → s.isRawByte = false)
      (h : ItemFault (style = .expanded ∧ s.takesBytes = true) (Γ.decodeFresh style s) bs e vs) :
      Leaves Γ style (.seq s) r bs e (.items vs)
  | entryCount {style keys key value r bs e}
      (h : LengthFault (style = .expanded ∧ (key.takesBytes = true ∨ value.takesBytes = true))
        bs e) :
      Leaves Γ style (.map keys key value) r bs e r
  | entry {style keys key value r bs e es m}
      (h : ItemFault (style = .expanded ∧ (key.takesBytes = true ∨ value.takesBytes = true))
        (Γ.decodeEntry style key value) bs e es)
      (hm : Entries.MadeOf keys.compare m es) :
      Leaves Γ style (.map keys key value) r bs e (.entries m)
  | array {style size s before v after bs n ws e w}
      (hbefore : Decoder.Fills (before.map fun _ => Γ.decode style s) before bs n ws)
      (h : Leaves Γ style s v (bs.drop n) e w) :
      Leaves Γ style (.array size s) (.items (before ++ v :: after)) bs e
        (.items (ws ++ w :: after))
  | record {style name slots slot slots' before v after bs n ws e w}
      (hf : Γ.find? name = some (.record (slots ++ slot :: slots')))
      (hbefore : Decoder.Fills (slots.map Γ.decodeSlot) before bs n ws)
      (ho : slot.offWire = false) (h : Leaves Γ .expanded slot.shape v (bs.drop n) e w) :
      Leaves Γ style (.ref name) (.record (before ++ v :: after)) bs e
        (.record (ws ++ w :: after))
  | tag {style name u r} (hf : Γ.find? name = some (.holder u)) :
      Leaves Γ style (.ref name) r [] .truncated r
  | unknown {style name u r tag bs} (hf : Γ.find? name = some (.holder u)) (ht : tag ≠ 0)
      (hm : u.member? tag.toNat = none) :
      Leaves Γ style (.ref name) r (tag :: bs) (.unknownTag tag) r
  | member {style name u r tag m bs e} (hf : Γ.find? name = some (.holder u))
      (hm : u.member? tag.toNat = some m) (h : Γ.decodeFresh .expanded m.shape bs = .error e) :
      Leaves Γ style (.ref name) r (tag :: bs) e r

variable {Γ : Schema} {style : Style} {s : Shape} {name : String} {r w : Value} {bs : List UInt8}
  {e : Fault}

/-! ### Each shape by itself -/

theorem decode_scalar_eq_error_iff {s : Scalar} {cast : Option Wire} :
    Γ.decode style (.scalar s cast) r bs = ⟨.error e, w⟩ ↔
      (cast.getD s.wire).read bs = .error e ∧ r = w := by
  cases cast <;> exact Decoder.ofReader_eq_error.trans (and_congr_left' Reader.map_eq_error)

theorem decode_converted_eq_error_iff {c : Conversion} {k : Wire} :
    Γ.decode style (.converted c k) r bs = ⟨.error e, w⟩ ↔ k.read bs = .error e ∧ r = w :=
  Decoder.ofReader_eq_error.trans (and_congr_left' Reader.map_eq_error)

theorem decode_option_eq_error_iff :
    Γ.decode style (.option s) r bs = ⟨.error e, w⟩ ↔
      (bs = [] ∧ e = .truncated ∨
        ∃ b cs, bs = b :: cs ∧ b ≠ 0 ∧ Γ.decodeFresh style s cs = .error e) ∧ r = w := by
  rw [decode_option, Decoder.ofReader_eq_error, readOption, Reader.announced_eq_error]

theorem decode_bytes_eq_error_iff (hs : s.isRawByte = true) :
    Γ.decode .expanded (.seq s) r bs = ⟨.error e, w⟩ ↔ readBytes bs = .error e ∧ r = w := by
  rw [decode, Shape.decode, if_pos ⟨rfl, hs⟩, Decoder.ofReader_eq_error, Reader.map_eq_error]

theorem decode_seq_eq_error_iff :
    Γ.decode style (.seq s) r bs = ⟨.error e, w⟩ ↔
      LengthFault (style = .expanded ∧ s.takesBytes = true) bs e ∧ r = w ∨
        ∃ vs, ItemFault (style = .expanded ∧ s.takesBytes = true) (Γ.decodeFresh style s) bs e vs ∧
          .items vs = w := by
  rw [decode_seq, Decoder.refill_eq_error_iff, Bool.and_eq_true, decide_eq_true_eq]

theorem decode_map_eq_error_iff {keys : Keys} {key value : Shape} :
    Γ.decode style (.map keys key value) r bs = ⟨.error e, w⟩ ↔
      LengthFault (style = .expanded ∧ (key.takesBytes = true ∨ value.takesBytes = true)) bs e ∧
          r = w ∨
        ∃ es, ItemFault (style = .expanded ∧ (key.takesBytes = true ∨ value.takesBytes = true))
          (Γ.decodeEntry style key value) bs e es ∧
            .entries (Entries.ofList es keys.compare) = w := by
  rw [decode_map, Decoder.refill_eq_error_iff, Bool.and_eq_true, Bool.or_eq_true,
    decide_eq_true_eq]

/-! ### Every failure has a rule -/

theorem leaves_seq (h : Γ.decode style (.seq s) r bs = ⟨.error e, w⟩) :
    Γ.Leaves style (.seq s) r bs e w := by
  by_cases hraw : style = .expanded ∧ s.isRawByte = true
  · obtain ⟨rfl, hs⟩ := hraw
    obtain ⟨he, rfl⟩ := (decode_bytes_eq_error_iff hs).1 h
    exact .bytes hs he
  · have hs (hx : style = .expanded) : s.isRawByte = false :=
      Bool.eq_false_iff.2 fun hs => hraw ⟨hx, hs⟩
    rcases decode_seq_eq_error_iff.1 h with ⟨hl, rfl⟩ | ⟨vs, hi, rfl⟩
    · exact .itemCount hs hl
    · exact .item hs hi

theorem leaves_map {keys : Keys} {key value : Shape}
    (h : Γ.decode style (.map keys key value) r bs = ⟨.error e, w⟩) :
    Γ.Leaves style (.map keys key value) r bs e w := by
  rcases decode_map_eq_error_iff.1 h with ⟨hl, rfl⟩ | ⟨es, hi, rfl⟩
  · exact .entryCount hl
  · exact .entry hi (Entries.ofList_madeOf es)

theorem leaves_holder {u : Members} (hf : Γ.find? name = some (.holder u))
    (h : Γ.decode style (.ref name) r bs = ⟨.error e, w⟩) :
    Γ.Leaves style (.ref name) r bs e w := by
  obtain rfl := decode_holder_of_error hf h
  rw [decode_holder style hf, Decoder.ofReader_eq_error, readHeld, Reader.announced_eq_error] at h
  obtain ⟨⟨rfl, rfl⟩ | ⟨tag, cs, rfl, ht, he⟩, -⟩ := h
  · exact .tag hf
  · cases hm : u.member? tag.toNat with
    | none =>
      rw [readMember_of_none hm] at he
      cases he
      exact .unknown hf ht hm
    | some m =>
      rw [readMember_of_some hm, Reader.map_eq_error] at he
      exact .member hf hm he

theorem Fits.leaves (hΓ : Γ.DefaultsFit) (hr : Γ.Fits s r)
    (h : Γ.decode style s r bs = ⟨.error e, w⟩) :
    Γ.Leaves style s r bs e w := by
  induction hr generalizing style bs e w with
  | scalar _ | cast _ _ _ =>
    obtain ⟨he, rfl⟩ := decode_scalar_eq_error_iff.1 h
    exact .scalar he
  | converted _ _ =>
    obtain ⟨he, rfl⟩ := decode_converted_eq_error_iff.1 h
    exact .converted he
  | delegate _ ih => exact .delegate (ih h)
  | staged _ _ =>
    rw [decode_staged] at h
    obtain ⟨he, rfl⟩ := Decoder.ofReader_eq_error.1 h
    exact .staged he
  | absent | present _ _ =>
    obtain ⟨⟨rfl, rfl⟩ | ⟨b, cs, rfl, hb, he⟩, rfl⟩ := decode_option_eq_error_iff.1 h
    · exact .presence
    · exact .content hb he
  | seq _ _ _ => exact leaves_seq h
  | map _ _ _ _ _ _ => exact leaves_map h
  | @array size s vs hl hvs ih =>
    rw [decode_array] at h
    rcases Decoder.inPlace_inv h with ⟨vs', us, hvs', hus, rfl⟩ | ⟨hnone, -⟩
    · cases hvs'
      obtain ⟨ys, x, ys', before, v, after, n, ws, w, hys, rfl, hfills, hw, rfl⟩ :=
        Decoder.exists_fills_of_eq_error hus
      have hlen : ys.length = before.length := by simpa using hfills.length_eq
      rw [List.map_const', hlen, ← List.map_const'] at hfills
      exact .array hfills (ih v (by simp) hw)
    · cases hnone
  | @record name slots vs hf hl hvs ih =>
    rw [decode_record hΓ style hf hl hvs] at h
    rcases Decoder.inPlace_inv h with ⟨vs', us, hvs', hus, rfl⟩ | ⟨hnone, -⟩
    · cases hvs'
      obtain ⟨ys, slot, ys', before, v, after, n, ws, w, rfl, rfl, hfills, hw, rfl⟩ :=
        Decoder.exists_fills_of_eq_error hus
      have hmem : (slot, v) ∈ (ys ++ slot :: ys').zip (before ++ v :: after) :=
        mem_zip_middle (by simpa using hfills.length_eq)
      cases ho : slot.offWire with
      | true =>
        rw [decodeSlot, ho, if_pos rfl] at hw
        cases hw
      | false =>
        rw [decodeSlot, ho, if_neg Bool.false_ne_true] at hw
        exact .record hf hfills ho (ih (slot, v) hmem ho hw)
    · cases hnone
  | empty hf | held hf _ _ _ _ => exact leaves_holder hf h

/-! ### Every rule is a failure -/

theorem Leaves.decode_eq (hΓ : Γ.DefaultsFit) (h : Γ.Leaves style s r bs e w)
    (hr : Γ.Fits s r) :
    Γ.decode style s r bs = ⟨.error e, w⟩ := by
  induction h with
  | scalar h => exact decode_scalar_eq_error_iff.2 ⟨h, rfl⟩
  | converted h => exact decode_converted_eq_error_iff.2 ⟨h, rfl⟩
  | delegate _ ih =>
    cases hr with
    | delegate hr => exact ih hr
  | staged h =>
    rw [decode_staged]
    exact Decoder.ofReader_eq_error.2 ⟨h, rfl⟩
  | presence => exact decode_option_eq_error_iff.2 ⟨.inl ⟨rfl, rfl⟩, rfl⟩
  | content hb h => exact decode_option_eq_error_iff.2 ⟨.inr ⟨_, _, rfl, hb, h⟩, rfl⟩
  | bytes hs h => exact (decode_bytes_eq_error_iff hs).2 ⟨h, rfl⟩
  | itemCount _ h => exact decode_seq_eq_error_iff.2 (.inl ⟨h, rfl⟩)
  | item _ h => exact decode_seq_eq_error_iff.2 (.inr ⟨_, h, rfl⟩)
  | entryCount h => exact decode_map_eq_error_iff.2 (.inl ⟨h, rfl⟩)
  | entry h hm =>
    obtain rfl := Entries.madeOf_iff.1 hm
    exact decode_map_eq_error_iff.2 (.inr ⟨_, h, rfl⟩)
  | @array _ _ _ before v after _ _ _ _ _ hbefore _ ih =>
    cases hr with
    | array hl hvs =>
      rw [decode_array]
      refine Decoder.inPlace_of_parts rfl ?_
      rw [List.map_append, List.map_cons]
      exact hbefore.decodeSlots_eq_error (ih (hvs v (by simp)))
  | @record _ _ slots slot slots' before v after _ _ _ _ _ hf hbefore ho _ ih =>
    cases hr with
    | record hf' hl hvs =>
      cases hf'.symm.trans hf
      have hmem : (slot, v) ∈ (slots ++ slot :: slots').zip (before ++ v :: after) :=
        mem_zip_middle (by simpa using hbefore.length_eq)
      have hslot := ih (hvs (slot, v) hmem ho)
      rw [decode_record hΓ _ hf hl hvs]
      refine Decoder.inPlace_of_parts rfl ?_
      rw [List.map_append, List.map_cons]
      refine hbefore.decodeSlots_eq_error ?_
      rwa [decodeSlot, ho, if_neg Bool.false_ne_true]
  | tag hf => exact decode_holder_nil hf
  | unknown hf ht hm => exact decode_holder_unknown hf ht hm
  | member hf hm h => exact decode_holder_error hf hm h

/-- **What a failure leaves behind.**  Decoding into a receiver of a shape fails exactly as the rules
say: for the fault of the first part that fails, and with the receiver that they give. -/
theorem decode_eq_error_iff (hΓ : Γ.DefaultsFit) (hr : Γ.Fits s r) (style : Style)
    (bs : List UInt8) (e : Fault) (w : Value) :
    Γ.decode style s r bs = ⟨.error e, w⟩ ↔ Γ.Leaves style s r bs e w :=
  ⟨hr.leaves hΓ, fun h => h.decode_eq hΓ hr⟩

/-- Registers of two bytes, with names for bytes and a mark. -/
def register : Schema :=
  { decls := [("Register", .record [
    ⟨.name "pair", .array 2 (.scalar .byte none), false, false⟩,
    ⟨.name "names", .map .sorted (.scalar .byte none) (.scalar .text none), false, false⟩,
    ⟨.name "mark", .scalar .bool none, false, false⟩])] }

/-- A register with its bytes, names and mark. -/
def registerOf (pair : List Int) (names : List (Int × String)) (mark : Bool) : Value :=
  .record [.items (pair.map fun i => .datum (.int i)),
    .entries (names.map fun e => (.datum (.int e.1), .datum (.text e.2))), .datum (.bool mark)]

theorem fits_register :
    register.Fits (.ref "Register") (registerOf [1, 2] [(9, "z")] true) := by
  have hbyte {i : Int} (hi : IntType.InRange ⟨false, .w8⟩ i) :
      register.Fits (.scalar .byte none) (.datum (.int i)) := .scalar hi
  have htext {t : String} (ht : t.utf8ByteSize < Width.w64.modulus) :
      register.Fits (.scalar .text none) (.datum (.text t)) := .scalar ht
  refine .record rfl rfl fun p hp _ => ?_
  simp only [List.zip_cons_cons, List.zip_nil_right, List.mem_cons, List.not_mem_nil,
    or_false] at hp
  rcases hp with rfl | rfl | rfl
  · refine .array rfl fun v hv => ?_
    simp only [List.map_cons, List.map_nil, List.mem_cons, List.not_mem_nil, or_false] at hv
    rcases hv with rfl | rfl
    · exact hbyte (by decide)
    · exact hbyte (by decide)
  · refine .map (by decide) (List.pairwise_singleton _ _) (fun e he => ?_) fun e he => ?_
    · obtain rfl := List.mem_singleton.1 he
      exact hbyte (by decide)
    · obtain rfl := List.mem_singleton.1 he
      exact htext (by decide)
  · exact .scalar trivial

/-- The third name is not UTF-8: the bytes are new, the second name has replaced the first one, and
the mark is old. -/
theorem decode_eq_error_register :
    register.Fits (.ref "Register") (registerOf [1, 2] [(9, "z")] true) ∧
    register.Leaves .expanded (.ref "Register") (registerOf [1, 2] [(9, "z")] true)
      [7, 8, 3, 1, 1, 97, 1, 1, 98, 2, 1, 255] .notUtf8 (registerOf [7, 8] [(1, "b")] true) :=
  ⟨fits_register,
    (decode_eq_error_iff (defaultsFit_of_nil rfl) fits_register _ _ _ _).1 (by cbv)⟩

end Schema

end Marshal
