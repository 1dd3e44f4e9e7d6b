import Marshal.Value

/-!
# The order of map keys

A `KeyOrder` says how the keys of a map are told apart: by a comparison that is transitive and the
same in both directions, and that need not see all of a key.  Keys that compare equal count as the
same key.  `Keys` adds how the map visits its entries.

`Value.compare` is such a comparison, and a linear order: only equal values compare equal (the
instances of `Std.TransCmp` and `Std.LawfulEqCmp`).
-/

namespace Marshal

/-! ### Induction on values -/

/-- Induction on values: what holds of the parts of a value holds of the value. -/
@[elab_as_elim, induction_eliminator]
theorem Value.inductionOn {motive : Value → Prop}
    (datum : ∀ d, motive (.datum d))
    (absent : motive .absent)
    (present : ∀ v, motive v → motive (.present v))
    (items : ∀ vs, (∀ v ∈ vs, motive v) → motive (.items vs))
    (entries : ∀ es, (∀ e ∈ es, motive e.1 ∧ motive e.2) → motive (.entries es))
    (record : ∀ vs, (∀ v ∈ vs, motive v) → motive (.record vs))
    (member : ∀ tag v, motive v → motive (.member tag v)) (v : Value) : motive v := by
  refine @Value.rec motive (fun vs => ∀ v ∈ vs, motive v)
    (fun es => ∀ e ∈ es, motive e.1 ∧ motive e.2) (fun e => motive e.1 ∧ motive e.2)
    datum absent present items entries record member ?_ ?_ ?_ ?_ ?_ v
  · intro v hv; cases hv
  · intro v vs hv hvs w hw
    rcases List.mem_cons.1 hw with rfl | hw
    · exact hv
    · exact hvs w hw
  · intro e he; cases he
  · intro e es he hes f hf
    rcases List.mem_cons.1 hf with rfl | hf
    · exact he
    · exact hes f hf
  · intro k v hk hv
    exact ⟨hk, hv⟩

/-- Induction on two values: of different kinds, or of one kind with what holds of the parts of the
first and any second value. -/
@[elab_as_elim]
theorem Value.inductionOnPair {motive : Value → Value → Prop}
    (differ : ∀ a b, a.rank ≠ b.rank → motive a b)
    (datum : ∀ d e, motive (.datum d) (.datum e))
    (absent : motive .absent .absent)
    (present : ∀ v w, motive v w → motive (.present v) (.present w))
    (items : ∀ vs ws, (∀ v ∈ vs, ∀ w, motive v w) → motive (.items vs) (.items ws))
    (entries : ∀ es fs, (∀ e ∈ es, (∀ w, motive e.1 w) ∧ ∀ w, motive e.2 w) →
      motive (.entries es) (.entries fs))
    (record : ∀ vs ws, (∀ v ∈ vs, ∀ w, motive v w) → motive (.record vs) (.record ws))
    (member : ∀ s t v w, motive v w → motive (.member s v) (.member t w)) (a b : Value) :
    motive a b := by
  induction a generalizing b with
  | datum d =>
    cases b with
    | datum e => exact datum d e
    | _ => exact differ _ _ (by simp [rank])
  | absent =>
    cases b with
    | absent => exact absent
    | _ => exact differ _ _ (by simp [rank])
  | present v ih =>
    cases b with
    | present w => exact present v w (ih w)
    | _ => exact differ _ _ (by simp [rank])
  | items vs ih =>
    cases b with
    | items ws => exact items vs ws ih
    | _ => exact differ _ _ (by simp [rank])
  | entries es ih =>
    cases b with
    | entries fs => exact entries es fs ih
    | _ => exact differ _ _ (by simp [rank])
  | record vs ih =>
    cases b with
    | record ws => exact record vs ws ih
    | _ => exact differ _ _ (by simp [rank])
  | member s v ih =>
    cases b with
    | member t w => exact member s t v w (ih w)
    | _ => exact differ _ _ (by simp [rank])

/-! ### Data -/

namespace Datum

theorem compare_swap (a b : Datum) : a.compare b = (b.compare a).swap := by
  cases a <;> cases b <;> simp only [compare, Ordering.swap_gt, Ordering.swap_lt]
  all_goals exact Std.OrientedCmp.eq_swap

theorem compare_eq_iff {a b : Datum} : a.compare b = .eq ↔ a = b := by
  cases a <;> cases b <;> simp [compare]

theorem compare_lt_trans {a b c : Datum} (hab : a.compare b = .lt) (hbc : b.compare c = .lt) :
    a.compare c = .lt := by
  cases a <;> cases b <;> cases c <;> simp only [compare, reduceCtorEq] at hab hbc ⊢
  all_goals exact Std.TransCmp.lt_trans hab hbc

end Datum

/-! ### Lists that compare by their first difference -/

section Lexicographic

variable {α : Type} {cmp : α → α → Ordering}

theorem compareLex_swap {as : List α} (h : ∀ a ∈ as, ∀ b, cmp a b = (cmp b a).swap)
    (bs : List α) : as.compareLex cmp bs = (bs.compareLex cmp as).swap := by
  induction as generalizing bs with
  | nil => cases bs <;> rfl
  | cons a as ih =>
    cases bs with
    | nil => rfl
    | cons b bs =>
      rw [List.compareLex_cons_cons, List.compareLex_cons_cons, Ordering.swap_then,
        ← h a List.mem_cons_self b, ← ih (fun c hc => h c (List.mem_cons_of_mem a hc)) bs]

theorem compareLex_eq_iff {as bs : List α} (h : ∀ a ∈ as, ∀ b, cmp a b = .eq ↔ a = b) :
    as.compareLex cmp bs = .eq ↔ as = bs := by
  induction as generalizing bs with
  | nil => cases bs <;> simp [List.compareLex]
  | cons a as ih =>
    cases bs with
    | nil => simp [List.compareLex]
    | cons b bs =>
      rw [List.compareLex_cons_cons, Ordering.then_eq_eq, h a List.mem_cons_self,
        ih fun c hc => h c (List.mem_cons_of_mem a hc), List.cons.injEq]

/-- A comparison in two stages is transitive if both of its stages are. -/
theorem then_lt_trans {a b c : α} {o o' o'' : Ordering} (heq : ∀ {x y}, cmp x y = .eq ↔ x = y)
    (hcmp : cmp a b = .lt → cmp b c = .lt → cmp a c = .lt)
    (ho : o = .lt → o' = .lt → o'' = .lt)
    (hab : (cmp a b).then o = .lt) (hbc : (cmp b c).then o' = .lt) : (cmp a c).then o'' = .lt := by
  rw [Ordering.then_eq_lt] at hab hbc ⊢
  rcases hab with hab | ⟨hab, h⟩ <;> rcases hbc with hbc | ⟨hbc, h'⟩
  · exact .inl (hcmp hab hbc)
  · exact .inl (heq.1 hbc ▸ hab)
  · exact .inl (heq.1 hab ▸ hbc)
  · exact .inr ⟨heq.1 hab ▸ hbc, ho h h'⟩

theorem compareLex_lt_trans {as bs cs : List α} (heq : ∀ {a b}, cmp a b = .eq ↔ a = b)
    (h : ∀ a ∈ as, ∀ c b, cmp a b = .lt → cmp b c = .lt → cmp a c = .lt)
    (hab : as.compareLex cmp bs = .lt) (hbc : bs.compareLex cmp cs = .lt) :
    as.compareLex cmp cs = .lt := by
  induction as generalizing bs cs with
  | nil =>
    cases cs with
    | nil => cases bs <;> simp [List.compareLex] at hab hbc
    | cons c cs => rfl
  | cons a as ih =>
    cases bs with
    | nil => cases hab
    | cons b bs =>
      cases cs with
      | nil => cases hbc
      | cons c cs =>
        rw [List.compareLex_cons_cons] at hab hbc ⊢
        exact then_lt_trans heq (h a List.mem_cons_self c b)
          (ih fun x hx => h x (List.mem_cons_of_mem a hx)) hab hbc

end Lexicographic

/-! ### Values -/

namespace Value

/-- Values of different kinds compare by their kinds. -/
theorem compare_of_rank_ne {a b : Value} (h : a.rank ≠ b.rank) :
    a.compare b = Ord.compare a.rank b.rank := by
  cases a <;> cases b <;> simp_all [compare, rank]

/-- The smaller of two values is not of a later kind. -/
theorem rank_le_of_compare_lt {a b : Value} (h : a.compare b = .lt) : a.rank ≤ b.rank := by
  rcases Nat.lt_or_ge b.rank a.rank with hr | hr
  · rw [compare_of_rank_ne (by omega), Nat.compare_eq_lt] at h
    omega
  · exact hr

theorem rank_eq_of_between {a b c : Value} (hab : a.compare b = .lt) (hbc : b.compare c = .lt)
    (h : a.rank = c.rank) : b.rank = c.rank := by
  have := rank_le_of_compare_lt hab
  have := rank_le_of_compare_lt hbc
  omega

theorem compareAll_eq (as bs : List Value) : compareAll as bs = as.compareLex compare bs := by
  induction as generalizing bs with
  | nil => cases bs <;> simp [compareAll, List.compareLex]
  | cons a as ih =>
    cases bs with
    | nil => simp [compareAll, List.compareLex]
    | cons b bs => rw [compareAll, ih, List.compareLex_cons_cons]

/-- Entries compare by their keys, and then by their values. -/
def compareEntry (e f : Value × Value) : Ordering := (e.1.compare f.1).then (e.2.compare f.2)

theorem compareEntries_eq (es fs : List (Value × Value)) :
    compareEntries es fs = es.compareLex compareEntry fs := by
  induction es generalizing fs with
  | nil => cases fs <;> simp [compareEntries, List.compareLex]
  | cons e es ih =>
    cases fs with
    | nil => simp [compareEntries, List.compareLex]
    | cons f fs => rw [compareEntries, ih, List.compareLex_cons_cons, compareEntry]

theorem compare_swap (a b : Value) : a.compare b = (b.compare a).swap := by
  induction a, b using inductionOnPair with
  | differ a b h =>
    rw [compare_of_rank_ne h, compare_of_rank_ne h.symm]
    exact Std.OrientedCmp.eq_swap
  | datum d e => simpa only [compare] using d.compare_swap e
  | absent => rfl
  | present v w ih => simpa only [compare] using ih
  | items vs ws ih => simpa only [compare, compareAll_eq] using compareLex_swap ih ws
  | entries es fs ih =>
    simp only [compare, compareEntries_eq]
    refine compareLex_swap (fun e he f => ?_) fs
    obtain ⟨hk, hv⟩ := ih e he
    rw [compareEntry, compareEntry, Ordering.swap_then, ← hk, ← hv]
  | record vs ws ih => simpa only [compare, compareAll_eq] using compareLex_swap ih ws
  | member s t v w ih =>
    rw [compare, compare, Ordering.swap_then, ← ih]
    exact congrArg (Ordering.then · _) Std.OrientedCmp.eq_swap

theorem compare_eq_iff {a b : Value} : a.compare b = .eq ↔ a = b := by
  induction a, b using inductionOnPair with
  | differ a b h =>
    rw [compare_of_rank_ne h, Nat.compare_eq_eq]
    exact ⟨fun he => absurd he h, fun he => he ▸ rfl⟩
  | datum d e => rw [compare, Datum.compare_eq_iff, datum.injEq]
  | absent => simp [compare]
  | present v w ih => rw [compare, ih, present.injEq]
  | items vs ws ih => rw [compare, compareAll_eq, compareLex_eq_iff ih, items.injEq]
  | entries es fs ih =>
    rw [compare, compareEntries_eq, entries.injEq]
    refine compareLex_eq_iff fun e he f => ?_
    obtain ⟨hk, hv⟩ := ih e he
    rw [compareEntry, Ordering.then_eq_eq, hk, hv, Prod.ext_iff]
  | record vs ws ih => rw [compare, compareAll_eq, compareLex_eq_iff ih, record.injEq]
  | member s t v w ih =>
    rw [compare, Ordering.then_eq_eq, Nat.compare_eq_eq, ih, member.injEq]

theorem compareEntry_eq_iff {e f : Value × Value} : compareEntry e f = .eq ↔ e = f := by
  rw [compareEntry, Ordering.then_eq_eq, compare_eq_iff, compare_eq_iff, Prod.ext_iff]

theorem compare_lt_trans {a b c : Value} (hab : a.compare b = .lt) (hbc : b.compare c = .lt) :
    a.compare c = .lt := by
  induction a, c using inductionOnPair generalizing b with
  | differ a c h =>
    have := rank_le_of_compare_lt hab
    have := rank_le_of_compare_lt hbc
    rw [compare_of_rank_ne h, Nat.compare_eq_lt]
    omega
  | datum d e =>
    -- a value between two of one kind is of that kind
    have hr := rank_eq_of_between hab hbc rfl
    cases b with
    | datum f =>
      rw [compare] at hab hbc ⊢
      exact Datum.compare_lt_trans hab hbc
    | _ => cases hr
  | absent =>
    have hr := rank_eq_of_between hab hbc rfl
    cases b with
    | absent => exact hab
    | _ => cases hr
  | present v w ih =>
    have hr := rank_eq_of_between hab hbc rfl
    cases b with
    | present u =>
      rw [compare] at hab hbc ⊢
      exact ih hab hbc
    | _ => cases hr
  | items vs ws ih =>
    have hr := rank_eq_of_between hab hbc rfl
    cases b with
    | items us =>
      rw [compare, compareAll_eq] at hab hbc ⊢
      exact compareLex_lt_trans compare_eq_iff (fun v hv w u => ih v hv w) hab hbc
    | _ => cases hr
  | entries es fs ih =>
    have hr := rank_eq_of_between hab hbc rfl
    cases b with
    | entries ds =>
      rw [compare, compareEntries_eq] at hab hbc ⊢
      refine compareLex_lt_trans compareEntry_eq_iff (fun e he f d => ?_) hab hbc
      obtain ⟨hk, hv⟩ := ih e he
      exact then_lt_trans compare_eq_iff (hk f.1) (hv f.2)
    | _ => cases hr
  | record vs ws ih =>
    have hr := rank_eq_of_between hab hbc rfl
    cases b with
    | record us =>
      rw [compare, compareAll_eq] at hab hbc ⊢
      exact compareLex_lt_trans compare_eq_iff (fun v hv w u => ih v hv w) hab hbc
    | _ => cases hr
  | member s t v w ih =>
    have hr := rank_eq_of_between hab hbc rfl
    cases b with
    | member i u =>
      rw [compare] at hab hbc ⊢
      exact then_lt_trans Nat.compare_eq_eq Std.TransCmp.lt_trans ih hab hbc
    | _ => cases hr

instance : Std.OrientedCmp Value.compare where
  eq_swap := compare_swap _ _

instance : Std.LawfulEqCmp Value.compare where
  eq_of_compare := compare_eq_iff.1
  compare_self := compare_eq_iff.2 rfl

instance : Std.TransCmp Value.compare where
  isLE_trans := by
    intro a b c hab hbc
    rw [Ordering.isLE_iff_eq_lt_or_eq_eq] at hab hbc ⊢
    rcases hab with hab | hab
    · rcases hbc with hbc | hbc
      · exact .inl (compare_lt_trans hab hbc)
      · exact .inl (compare_eq_iff.1 hbc ▸ hab)
    · exact compare_eq_iff.1 hab ▸ hbc

end Value

/-! ### Keys -/

/-- How the keys of a map are told apart.  Keys that compare equal count as the same key. -/
structure KeyOrder where
  compare : Value → Value → Ordering
  lawful : Std.TransCmp compare

/-- Keys are compared in all their parts. -/
def KeyOrder.structural : KeyOrder := ⟨Value.compare, inferInstance⟩

/-- How a map visits its entries. -/
inductive Visit where
  /-- In the order of the keys. -/
  | sorted
  /-- In any order. -/
  | hashed
deriving DecidableEq, Repr

/-- How a map tells its keys apart and how it visits its entries. -/
structure Keys extends KeyOrder where
  visit : Visit

namespace Keys

instance (keys : Keys) : Std.TransCmp keys.compare := keys.lawful

/-- Keys that are compared in all their parts and visited in their order. -/
def sorted : Keys := ⟨.structural, .sorted⟩

/-- Keys that are compared in all their parts and visited in any order. -/
def hashed : Keys := ⟨.structural, .hashed⟩

end Keys

end Marshal
