import Marshal.Schema.Equality
import Marshal.Proofs.Typing
import Mathlib.Data.List.Forall2

/-!
# Values that count as equal

`Schema.Same` says in one rule per shape when two values count as equal, and `Schema.equals_iff`
that this is what code of either style decides.  Sequences are compared item by item, and maps by
looking up each key of the first in the second after a comparison of their sizes.  The second map
then has no other keys (`Entries.places_perm`).
-/

namespace Marshal

/-! ### Sequences -/

theorem sameInPairs_iff {α : Type} {same : α → α → Bool} {as bs : List α} :
    sameInPairs same as bs = true ↔ List.Forall₂ (fun a b => same a b = true) as bs := by
  rw [sameInPairs, List.forall₂_iff_zip]
  simp

theorem sameAtPositions_iff {α : Type} {same : α → α → Bool} {as bs : List α} :
    sameAtPositions same as bs = true ↔ List.Forall₂ (fun a b => same a b = true) as bs := by
  simp only [sameAtPositions, List.size_toArray, Bool.and_eq_true, beq_iff_eq, List.all_eq_true,
    List.mem_range, List.getElem?_toArray, List.forall₂_iff_get]
  refine and_congr_right fun hl => ⟨fun h i hi hi' => ?_, fun h i hi => ?_⟩
  · simpa [hi, hi'] using h i hi
  · simpa [hi, hl ▸ hi] using h i hi (hl ▸ hi)

/-- To compare position by position is to compare pair by pair. -/
theorem Style.sameItems_eq {α : Type} (style : Style) (same : α → α → Bool) (as bs : List α) :
    style.sameItems same as bs = sameInPairs same as bs := by
  cases style with
  | expanded =>
    rw [Bool.eq_iff_iff]
    exact sameAtPositions_iff.trans sameInPairs_iff.symm
  | generic => rfl

theorem Style.sameItems_iff {α : Type} {style : Style} {same : α → α → Bool} {as bs : List α} :
    style.sameItems same as bs = true ↔
      as.length = bs.length ∧ ∀ a b, (a, b) ∈ as.zip bs → same a b = true := by
  rw [Style.sameItems_eq, sameInPairs_iff, List.forall₂_iff_zip]

/-- Two lists are zipped position by position. -/
theorem mem_zip_iff {α β : Type} {as : List α} {bs : List β} {a : α} {b : β} :
    (a, b) ∈ as.zip bs ↔ ∃ i : Nat, as[i]? = some a ∧ bs[i]? = some b := by
  simp only [List.mem_iff_getElem?, List.getElem?_zip_eq_some]

theorem mem_zip_zip_iff {α β γ : Type} {as : List α} {bs : List β} {cs : List γ} {a : α} {b : β}
    {c : γ} : ((a, b), c) ∈ (as.zip bs).zip cs ↔
      ∃ i : Nat, as[i]? = some a ∧ bs[i]? = some b ∧ cs[i]? = some c := by
  simp only [List.mem_iff_getElem?, List.getElem?_zip_eq_some, and_assoc]

theorem mem_zip_self {α : Type} {as : List α} {x y : α} :
    (x, y) ∈ as.zip as ↔ x = y ∧ x ∈ as := by
  rw [mem_zip_iff, List.mem_iff_getElem?]
  constructor
  · rintro ⟨i, hx, hy⟩
    exact ⟨Option.some.inj (hx.symm.trans hy), i, hx⟩
  · rintro ⟨rfl, i, hx⟩
    exact ⟨i, hx, hx⟩

theorem mem_zip_zip_self {α β : Type} {as : List α} {bs : List β} {a : α} {x y : β} :
    ((a, x), y) ∈ (as.zip bs).zip bs ↔ x = y ∧ (a, x) ∈ as.zip bs := by
  rw [mem_zip_zip_iff, mem_zip_iff]
  constructor
  · rintro ⟨i, ha, hx, hy⟩
    exact ⟨Option.some.inj (hx.symm.trans hy), i, ha, hx⟩
  · rintro ⟨rfl, i, ha, hx⟩
    exact ⟨i, ha, hx, hx⟩

theorem mem_zip_comm {α β : Type} {as : List α} {bs : List β} {a : α} {b : β} :
    (a, b) ∈ as.zip bs ↔ (b, a) ∈ bs.zip as := by
  simp only [mem_zip_iff, and_comm]

theorem mem_zip_zip_comm {α β γ : Type} {as : List α} {bs : List β} {cs : List γ} {a : α} {b : β}
    {c : γ} : ((a, b), c) ∈ (as.zip bs).zip cs ↔ ((a, c), b) ∈ (as.zip cs).zip bs := by
  simp only [mem_zip_zip_iff, and_comm]

theorem exists_getElem?_of_length_le {α β : Type} {as : List α} {bs : List β} {a : α} {i : Nat}
    (hl : as.length ≤ bs.length) (h : as[i]? = some a) : ∃ b, bs[i]? = some b :=
  ⟨_, List.getElem?_eq_getElem ((List.getElem?_eq_some_iff.1 h).1.trans_le hl)⟩

/-- Between two lists that are zipped a third one can be put, if it is long enough. -/
theorem exists_mem_zip_between {α β γ : Type} {as : List α} {bs : List β} {cs : List γ} {a : α}
    {c : γ} (hl : as.length ≤ bs.length) (h : (a, c) ∈ as.zip cs) :
    ∃ b, (a, b) ∈ as.zip bs ∧ (b, c) ∈ bs.zip cs := by
  obtain ⟨i, ha, hc⟩ := mem_zip_iff.1 h
  obtain ⟨b, hb⟩ := exists_getElem?_of_length_le hl ha
  exact ⟨b, mem_zip_iff.2 ⟨i, ha, hb⟩, mem_zip_iff.2 ⟨i, hb, hc⟩⟩

theorem exists_mem_zip_zip_between {α β γ δ : Type} {ss : List α} {as : List β} {bs : List γ}
    {cs : List δ} {s : α} {a : β} {c : δ} (hl : ss.length ≤ bs.length)
    (h : ((s, a), c) ∈ (ss.zip as).zip cs) :
    ∃ b, ((s, a), b) ∈ (ss.zip as).zip bs ∧ ((s, b), c) ∈ (ss.zip bs).zip cs := by
  obtain ⟨i, hs, ha, hc⟩ := mem_zip_zip_iff.1 h
  obtain ⟨b, hb⟩ := exists_getElem?_of_length_le hl hs
  exact ⟨b, mem_zip_zip_iff.2 ⟨i, hs, ha, hb⟩, mem_zip_zip_iff.2 ⟨i, hs, hb, hc⟩⟩

/-! ### The relation that equality decides -/

namespace Schema

/-- The values `a` and `b` of a shape count as equal. -/
inductive Same (Γ : Schema) : Shape → (a b : Value) → Prop where
  | scalar {s cast d e} (h : s.same d e = true) : Same Γ (.scalar s cast) (.datum d) (.datum e)
  | converted {c w d e} (h : c.same d e = true) : Same Γ (.converted c w) (.datum d) (.datum e)
  | delegate {s a b} (h : Same Γ s a b) : Same Γ (.delegate s) a b
  | staged {s a b} (h : Same Γ s a b) : Same Γ (.staged s) a b
  | absent {s} : Same Γ (.option s) .absent .absent
  | present {s a b} (h : Same Γ s a b) : Same Γ (.option s) (.present a) (.present b)
  | array {size s as bs} (hl : as.length = bs.length)
      (h : ∀ a b, (a, b) ∈ as.zip bs → Same Γ s a b) :
      Same Γ (.array size s) (.items as) (.items bs)
  | seq {s as bs} (hl : as.length = bs.length) (h : ∀ a b, (a, b) ∈ as.zip bs → Same Γ s a b) :
      Same Γ (.seq s) (.items as) (.items bs)
  /-- Each key of the first map is in the second, and its two values count as equal. -/
  | map {keys key value es fs} (hl : es.length = fs.length)
      (hk : ∀ e ∈ es, (Entries.find? keys.compare e.1 fs).isSome)
      (h : ∀ e ∈ es, ∀ b, Entries.find? keys.compare e.1 fs = some b → Same Γ value e.2 b) :
      Same Γ (.map keys key value) (.entries es) (.entries fs)
  | record {name slots as bs} (hf : Γ.find? name = some (.record slots))
      (ha : slots.length ≤ as.length) (hb : slots.length ≤ bs.length)
      (h : ∀ slot a b, ((slot, a), b) ∈ (slots.zip as).zip bs → slot.uncompared = false →
        Same Γ slot.shape a b) :
      Same Γ (.ref name) (.record as) (.record bs)
  | empty {name u} (hf : Γ.find? name = some (.holder u)) : Same Γ (.ref name) .absent .absent
  | held {name u tag m a b} (hf : Γ.find? name = some (.holder u)) (hm : u.member? tag = some m)
      (h : Same Γ m.shape a b) :
      Same Γ (.ref name) (.present (.member tag a)) (.present (.member tag b))

/-- The members `a` and `b` of a union count as equal. -/
inductive SameMember (Γ : Schema) (u : Members) : (a b : Value) → Prop where
  | intro {tag m a b} (hm : u.member? tag = some m) (h : Γ.Same m.shape a b) :
      SameMember Γ u (.member tag a) (.member tag b)

end Schema

section Deciding

variable {Γ : Schema} {named : String → Value → Value → Bool}

/-- Items are compared one by one, whatever the style. -/
theorem Shape.sameItems_iff_same {style : Style} {s : Shape} {as bs : List Value}
    (h : ∀ name u b, u.height ≤ (Value.items as).height →
      (named name u b = true ↔ Γ.Same (.ref name) u b))
    (ih : ∀ {a} b, (∀ name u b, u.height ≤ Value.height a →
      (named name u b = true ↔ Γ.Same (.ref name) u b)) →
      (s.equals named style a b = true ↔ Γ.Same s a b)) :
    style.sameItems (s.equals named style) as bs = true ↔
      as.length = bs.length ∧ ∀ a b, (a, b) ∈ as.zip bs → Γ.Same s a b := by
  rw [Style.sameItems_iff]
  refine and_congr_right fun _ => forall₂_congr fun a b => imp_congr_right fun hab => ?_
  refine ih b fun name u c hu => h name u c ?_
  exact Nat.le_succ_of_le (hu.trans (Value.height_le_of_mem (List.of_mem_zip hab).1))

theorem Shape.equals_entries_iff {style : Style} {keys : Keys} {key value : Shape}
    {es fs : Entries} :
    (Shape.map keys key value).equals named style (.entries es) (.entries fs) = true ↔
      es.length = fs.length ∧ (∀ e ∈ es, (Entries.find? keys.compare e.1 fs).isSome) ∧
        ∀ e ∈ es, ∀ b, Entries.find? keys.compare e.1 fs = some b →
          value.equals named style e.2 b = true := by
  rw [equals, Bool.and_eq_true, beq_iff_eq, List.all_eq_true, ← forall₂_and]
  refine and_congr_right fun _ => forall₂_congr fun e _ => ?_
  rcases e with ⟨k, a⟩
  cases hb : Entries.find? keys.compare k fs with
  | none => simp [hb]
  | some b => simp [hb]

/-- If the equality of declared values that are no higher decides `Same`, so does that of a
shape. -/
theorem Shape.equals_iff (style : Style) (s : Shape) {a : Value} (b : Value)
    (h : ∀ name u b, u.height ≤ a.height → (named name u b = true ↔ Γ.Same (.ref name) u b)) :
    s.equals named style a b = true ↔ Γ.Same s a b := by
  induction s generalizing style a b with
  | scalar s cast =>
    constructor
    · intro heq
      cases a with
      | datum d =>
        cases b with
        | datum e => exact .scalar heq
        | _ => simp [equals] at heq
      | _ => simp [equals] at heq
    · intro hab
      cases hab with
      | scalar hde => exact hde
  | converted c w =>
    constructor
    · intro heq
      cases a with
      | datum d =>
        cases b with
        | datum e => exact .converted heq
        | _ => simp [equals] at heq
      | _ => simp [equals] at heq
    · intro hab
      cases hab with
      | converted hde => exact hde
  | delegate s ih => exact (ih .generic b h).trans ⟨.delegate, fun | .delegate hab => hab⟩
  | staged s ih => exact (ih style b h).trans ⟨.staged, fun | .staged hab => hab⟩
  | ref name => exact h name a b (Nat.le_refl _)
  | option s ih =>
    constructor
    · intro heq
      cases a with
      | absent =>
        cases b with
        | absent => exact .absent
        | _ => simp [equals] at heq
      | present a =>
        cases b with
        | present b =>
          exact .present ((ih style b fun name u c hu => h name u c (Nat.le_succ_of_le hu)).1 heq)
        | _ => simp [equals] at heq
      | _ => simp [equals] at heq
    · intro hab
      cases hab with
      | absent => rfl
      | present hab =>
        exact (ih style _ fun name u c hu => h name u c (Nat.le_succ_of_le hu)).2 hab
  | array size s ih =>
    constructor
    · intro heq
      cases a with
      | items as =>
        cases b with
        | items bs =>
          obtain ⟨hl, hs⟩ := (sameItems_iff_same h (ih style)).1 heq
          exact .array hl hs
        | _ => simp [equals] at heq
      | _ => simp [equals] at heq
    · intro hab
      cases hab with
      | array hl hs => exact (sameItems_iff_same h (ih style)).2 ⟨hl, hs⟩
  | seq s ih =>
    constructor
    · intro heq
      cases a with
      | items as =>
        cases b with
        | items bs =>
          obtain ⟨hl, hs⟩ := (sameItems_iff_same h (ih style)).1 heq
          exact .seq hl hs
        | _ => simp [equals] at heq
      | _ => simp [equals] at heq
    · intro hab
      cases hab with
      | seq hl hs => exact (sameItems_iff_same h (ih style)).2 ⟨hl, hs⟩
  | map keys key value ihk ihv =>
    have hvalue {es : Entries} (hes : a = .entries es) (e : Value × Value) (he : e ∈ es)
        (b : Value) : value.equals named style e.2 b = true ↔ Γ.Same value e.2 b := by
      refine ihv style b fun name u c hu => h name u c ?_
      rw [hes]
      exact Nat.le_succ_of_le (hu.trans (Value.height_le_of_entry he).2)
    constructor
    · intro heq
      cases a with
      | entries es =>
        cases b with
        | entries fs =>
          obtain ⟨hl, hk, hs⟩ := equals_entries_iff.1 heq
          exact .map hl hk fun e he b hb => (hvalue rfl e he b).1 (hs e he b hb)
        | _ => simp [equals] at heq
      | _ => simp [equals] at heq
    · intro hab
      cases hab with
      | map hl hk hs =>
        exact equals_entries_iff.2
          ⟨hl, hk, fun e he b hb => (hvalue rfl e he b).2 (hs e he b hb)⟩

theorem equalSlots_iff {slots : List Slot} {as bs : List Value} :
    equalSlots named slots as bs = true ↔
      slots.length ≤ as.length ∧ slots.length ≤ bs.length ∧
        ∀ slot a b, ((slot, a), b) ∈ (slots.zip as).zip bs → slot.uncompared = false →
          slot.shape.equals named .expanded a b = true := by
  induction slots generalizing as bs with
  | nil => simp [equalSlots]
  | cons slot slots ih =>
    cases as with
    | nil => simp [equalSlots]
    | cons a as =>
      cases bs with
      | nil => simp [equalSlots]
      | cons b bs =>
        rw [equalSlots, Bool.and_eq_true, ih]
        simp only [List.length_cons, Nat.add_le_add_iff_right, List.zip_cons_cons, List.mem_cons]
        constructor
        · rintro ⟨hab, ha, hb, h⟩
          refine ⟨ha, hb, ?_⟩
          rintro slot' x y (heq | hmem) hc
          · cases heq
            simpa [hc] using hab
          · exact h slot' x y hmem hc
        · rintro ⟨ha, hb, h⟩
          refine ⟨?_, ha, hb, fun slot' x y hmem => h slot' x y (.inr hmem)⟩
          cases hc : slot.uncompared with
          | true => rfl
          | false => exact h slot a b (.inl rfl) hc

/-- A member wraps its value: its equality depends only on that of declared values that are
lower. -/
theorem Members.equalMembers_iff (u : Members) {a : Value} (b : Value)
    (h : ∀ name x b, x.height < a.height → (named name x b = true ↔ Γ.Same (.ref name) x b)) :
    u.equalMembers named a b = true ↔ Γ.SameMember u a b := by
  constructor
  · intro heq
    cases a with
    | member s a =>
      cases b with
      | member t b =>
        rw [equalMembers, Bool.and_eq_true, beq_iff_eq] at heq
        obtain ⟨rfl, heq⟩ := heq
        cases hm : u.member? s with
        | none => simp [hm] at heq
        | some m =>
          rw [hm] at heq
          refine .intro hm ((m.shape.equals_iff .expanded b fun name x c hx => ?_).1 heq)
          exact h name x c (Nat.lt_succ_of_le hx)
      | _ => simp [equalMembers] at heq
    | _ => simp [equalMembers] at heq
  · intro hab
    cases hab with
    | @intro tag m a b hm hab =>
      simp only [equalMembers, hm, beq_self_eq_true, Bool.true_and]
      exact (m.shape.equals_iff .expanded b fun name x c hx =>
        h name x c (Nat.lt_succ_of_le hx)).2 hab

/-- A declared type wraps its parts: its equality depends only on that of declared values that are
lower. -/
theorem Decl.equals_iff {name : String} {d : Decl} {a : Value} (b : Value)
    (hf : Γ.find? name = some d)
    (h : ∀ name u b, u.height < a.height → (named name u b = true ↔ Γ.Same (.ref name) u b)) :
    d.equals named a b = true ↔ Γ.Same (.ref name) a b := by
  cases d with
  | record slots =>
    have hslot {as : List Value} (has : a = .record as) {slot : Slot} {x y : Value}
        (hx : x ∈ as) : slot.shape.equals named .expanded x y = true ↔ Γ.Same slot.shape x y := by
      refine slot.shape.equals_iff .expanded y fun name u c hu => h name u c ?_
      rw [has]
      exact Nat.lt_succ_of_le (hu.trans (Value.height_le_of_mem hx))
    constructor
    · intro heq
      cases a with
      | record as =>
        cases b with
        | record bs =>
          obtain ⟨ha, hb, hs⟩ := equalSlots_iff.1 heq
          refine .record hf ha hb fun slot x y hxy hc => ?_
          exact (hslot rfl (List.of_mem_zip (List.of_mem_zip hxy).1).2).1 (hs slot x y hxy hc)
        | _ => simp [equals] at heq
      | _ => simp [equals] at heq
    · intro hab
      cases hab with
      | record hf' ha hb hs =>
        cases hf'.symm.trans hf
        refine equalSlots_iff.2 ⟨ha, hb, fun slot x y hxy hc => ?_⟩
        exact (hslot rfl (List.of_mem_zip (List.of_mem_zip hxy).1).2).2 (hs slot x y hxy hc)
      | empty hf' | held hf' _ _ => cases hf'.symm.trans hf
  | holder u =>
    constructor
    · intro heq
      cases a with
      | absent =>
        cases b with
        | absent => exact .empty hf
        | _ => simp [equals] at heq
      | present a =>
        cases b with
        | present b =>
          have hmem := (u.equalMembers_iff b fun name x c hx =>
            h name x c (Nat.lt_succ_of_lt hx)).1 heq
          cases hmem with
          | intro hm hab => exact .held hf hm hab
        | _ => simp [equals] at heq
      | _ => simp [equals] at heq
    · intro hab
      cases hab with
      | record hf' _ _ _ => cases hf'.symm.trans hf
      | empty _ => rfl
      | held hf' hm hab =>
        cases hf'.symm.trans hf
        exact (u.equalMembers_iff _ fun name x c hx =>
          h name x c (Nat.lt_succ_of_lt hx)).2 (.intro hm hab)

end Deciding

namespace Schema

variable {Γ : Schema} {s : Shape} {a b : Value}

theorem equalNamed_iff {depth : Nat} (name : String) (b : Value) (h : a.height < depth) :
    Γ.equalNamed depth name a b = true ↔ Γ.Same (.ref name) a b := by
  induction depth generalizing name a b with
  | zero => cases h
  | succ depth ih =>
    rw [equalNamed]
    cases hf : Γ.find? name with
    | none =>
      constructor
      · intro hfalse
        cases hfalse
      · intro hab
        cases hab with
        | record hf' _ _ _ | empty hf' | held hf' _ _ => cases hf'.symm.trans hf
    | some d => exact Decl.equals_iff b hf fun name u c hu => ih name c (by omega)

/-- Code of either style decides whether two values count as equal. -/
theorem equals_iff {style : Style} : Γ.equals style s a b = true ↔ Γ.Same s a b :=
  s.equals_iff style b fun name _ c hu => equalNamed_iff name c (Nat.lt_succ_of_le hu)

theorem equalMembers_iff {u : Members} : Γ.equalMembers u a b = true ↔ Γ.SameMember u a b :=
  u.equalMembers_iff b fun name _ c hx => equalNamed_iff name c (Nat.lt_succ_of_lt hx)

/-! ### Equality from that of the parts -/

variable (Γ) in
theorem equals_present (style : Style) (s : Shape) (a b : Value) :
    Γ.equals style (.option s) (.present a) (.present b) = Γ.equals style s a b := by
  rw [Bool.eq_iff_iff, equals_iff, equals_iff]
  constructor
  · intro h
    cases h with
    | present h => exact h
  · exact .present

variable (Γ) in
theorem equals_array (style : Style) (size : Nat) (s : Shape) (as bs : List Value) :
    Γ.equals style (.array size s) (.items as) (.items bs) =
      style.sameItems (Γ.equals style s) as bs := by
  rw [Bool.eq_iff_iff, Style.sameItems_iff]
  simp only [equals_iff]
  constructor
  · intro h
    cases h with
    | array hl h => exact ⟨hl, h⟩
  · rintro ⟨hl, h⟩
    exact .array hl h

variable (Γ) in
theorem equals_seq (style : Style) (s : Shape) (as bs : List Value) :
    Γ.equals style (.seq s) (.items as) (.items bs) =
      style.sameItems (Γ.equals style s) as bs := by
  rw [Bool.eq_iff_iff, Style.sameItems_iff]
  simp only [equals_iff]
  constructor
  · intro h
    cases h with
    | seq hl h => exact ⟨hl, h⟩
  · rintro ⟨hl, h⟩
    exact .seq hl h

variable (Γ) in
theorem equals_map (style : Style) (keys : Keys) (key value : Shape) (es fs : Entries) :
    Γ.equals style (.map keys key value) (.entries es) (.entries fs) =
      (es.length == fs.length && es.all fun e =>
        (Entries.find? keys.compare e.1 fs).any fun b => Γ.equals style value e.2 b) := by
  rw [Bool.eq_iff_iff, equals_iff, Bool.and_eq_true, beq_iff_eq, List.all_eq_true]
  have hiff (e : Value × Value) :
      ((Entries.find? keys.compare e.1 fs).any fun b => Γ.equals style value e.2 b) = true ↔
        (Entries.find? keys.compare e.1 fs).isSome ∧
          ∀ b, Entries.find? keys.compare e.1 fs = some b → Γ.Same value e.2 b := by
    cases Entries.find? keys.compare e.1 fs <;> simp [equals_iff]
  simp only [hiff]
  constructor
  · intro h
    cases h with
    | map hl hk h => exact ⟨hl, fun e he => ⟨hk e he, h e he⟩⟩
  · rintro ⟨hl, h⟩
    exact .map hl (fun e he => (h e he).1) fun e he => (h e he).2

/-- Records with a value in each slot are compared slot by slot. -/
theorem equals_record (style : Style) {name : String} {slots : List Slot} {as bs : List Value}
    (hf : Γ.find? name = some (.record slots)) (ha : slots.length ≤ as.length)
    (hb : slots.length ≤ bs.length) :
    Γ.equals style (.ref name) (.record as) (.record bs) =
      ((slots.zip as).zip bs).all fun x =>
        x.1.1.uncompared || Γ.equals .expanded x.1.1.shape x.1.2 x.2 := by
  rw [Bool.eq_iff_iff, equals_iff, List.all_eq_true]
  constructor
  · intro h x hx
    cases h with
    | record hf' _ _ hs =>
      cases hf'.symm.trans hf
      cases hc : x.1.1.uncompared with
      | true => rfl
      | false => exact equals_iff.2 (hs x.1.1 x.1.2 x.2 hx hc)
  · intro h
    refine .record hf ha hb fun slot a b hx hc => ?_
    have heq := h _ hx
    rw [hc, Bool.false_or] at heq
    exact equals_iff.1 heq

theorem equalMembers_member {u : Members} {tag : Nat} {m : Member}
    (hm : u.member? tag = some m) (a b : Value) :
    Γ.equalMembers u (.member tag a) (.member tag b) = Γ.equals .expanded m.shape a b := by
  rw [Bool.eq_iff_iff, equalMembers_iff, equals_iff]
  constructor
  · intro h
    cases h with
    | intro hm' h =>
      cases hm'.symm.trans hm
      exact h
  · exact .intro hm

end Schema

end Marshal
