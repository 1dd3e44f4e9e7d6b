import Marshal.Schema.Blank
import Marshal.Proofs.Wire
import Marshal.Proofs.Order
import Mathlib.Data.Finset.Card
import Mathlib.Order.Monotone.Basic

/-!
# Values of a shape

`Schema.Fits` says when a value is one of a shape: numbers are in range, arrays have their size,
lengths and tags fit their wire types, and no two keys of a map count as the same.  What a slot off
the wire holds is left open.

A declared type may refer to itself, and nothing keeps a schema from a circle of references that
uses no byte.  Such a type has no values.  So for a shape with a value the references that are
followed before the next byte end, and as they cannot come back to a name, they end within as many
steps as there are names (`Schema.Fits.grounded`).  That is the budget of the decoder, and it makes
the blank value of such a shape a value of the shape, if those that declared types have of their own
are values of these types (`Schema.DefaultsFit`, `Schema.Fits.blank`).
-/

namespace Marshal

theorem Scalar.has_blank (s : Scalar) : s.Has s.blank := by
  cases s with
  | int t => exact t.inRange_zero
  | float f =>
    have := f.infinity_lt_signPlace
    show 0 < 2 * f.signPlace
    omega
  | bool => trivial
  | text => show 0 < Width.w64.modulus; decide

namespace Value

theorem height_le_of_mem {v : Value} {vs : List Value} (h : v ∈ vs) :
    v.height ≤ heightOfAll vs := by
  induction vs with
  | nil => cases h
  | cons u us ih =>
    rw [heightOfAll]
    rcases List.mem_cons.1 h with rfl | h
    · exact Nat.le_max_left _ _
    · exact (ih h).trans (Nat.le_max_right _ _)

theorem height_le_of_entry {k v : Value} {es : Entries} (h : (k, v) ∈ es) :
    k.height ≤ heightOfEntries es ∧ v.height ≤ heightOfEntries es := by
  induction es with
  | nil => cases h
  | cons f es ih =>
    obtain ⟨l, w⟩ := f
    rw [heightOfEntries]
    rcases List.mem_cons.1 h with he | h
    · cases he
      omega
    · have := ih h
      omega

end Value

namespace Schema

/-- The value `v` is a value of shape `s`. -/
inductive Fits (Γ : Schema) : Shape → Value → Prop where
  | scalar {s d} (h : s.Has d) : Fits Γ (.scalar s none) (.datum d)
  /-- Numbers can be cast to numbers, whether they survive it or not. -/
  | cast {s w d} (hs : s.numeric) (hw : w.numeric) (h : s.Has d) :
      Fits Γ (.scalar s (some w)) (.datum d)
  /-- A conversion yields a value of the wire kind for each value of its carrier. -/
  | converted {c w d} (hc : ∀ d, c.carrier.Has d → w.scalar.Has (c.toWire d))
      (h : c.carrier.Has d) : Fits Γ (.converted c w) (.datum d)
  | delegate {s v} (h : Fits Γ s v) : Fits Γ (.delegate s) v
  | staged {s v} (h : Fits Γ s v) : Fits Γ (.staged s) v
  | absent {s} : Fits Γ (.option s) .absent
  | present {s v} (h : Fits Γ s v) : Fits Γ (.option s) (.present v)
  | array {size s vs} (hl : vs.length = size) (h : ∀ v ∈ vs, Fits Γ s v) :
      Fits Γ (.array size s) (.items vs)
  | seq {s vs} (hl : vs.length < 2 ^ 64) (h : ∀ v ∈ vs, Fits Γ s v) : Fits Γ (.seq s) (.items vs)
  /-- The entries stand in the order they are visited, and so do those of maps within a key: keys
  that differ in no more than that are the same. -/
  | map {keys key value es} (hl : es.length < 2 ^ 64)
      (hd : es.Pairwise (Entries.Separate keys.compare)) (hk : ∀ e ∈ es, Fits Γ key e.1)
      (hv : ∀ e ∈ es, Fits Γ value e.2) : Fits Γ (.map keys key value) (.entries es)
  | record {name slots vs} (hf : Γ.find? name = some (.record slots))
      (hl : slots.length = vs.length)
      (h : ∀ p ∈ slots.zip vs, p.1.offWire = false → Fits Γ p.1.shape p.2) :
      Fits Γ (.ref name) (.record vs)
  | empty {name u} (hf : Γ.find? name = some (.holder u)) : Fits Γ (.ref name) .absent
  | held {name u tag m v} (hf : Γ.find? name = some (.holder u)) (hm : u.member? tag = some m)
      (ht : tag < 256) (h : Fits Γ m.shape v) : Fits Γ (.ref name) (.present (.member tag v))

/-- The blank values that declared types have of their own are values of these types. -/
def DefaultsFit (Γ : Schema) : Prop :=
  ∀ name v, Γ.defaults.lookup name = some v → Γ.Fits (.ref name) v

theorem defaultsFit_of_forall {Γ : Schema} (h : ∀ p ∈ Γ.defaults, Γ.Fits (.ref p.1) p.2) :
    Γ.DefaultsFit := by
  intro name v hv
  obtain ⟨ps, ps', hps, -⟩ := List.lookup_eq_some_iff.1 hv
  exact h (name, v) (by simp [hps])

theorem defaultsFit_of_nil {Γ : Schema} (h : Γ.defaults = []) : Γ.DefaultsFit :=
  defaultsFit_of_forall (by simp [h])

end Schema

/-! ### References that use no byte -/

/-- The names that a shape refers to before a byte of its value is used. -/
def Shape.direct : Shape → List String
  | ref name => [name]
  | delegate s | staged s => s.direct
  | array size s => if size = 0 then [] else s.direct
  | _ => []

/-- The names that a declared type refers to before a byte of its value is used. -/
def Decl.direct : Decl → List String
  | record slots => slots.flatMap fun slot => if slot.offWire then [] else slot.shape.direct
  | holder _ => []

namespace Schema

/-- The references out of a name end within `k` steps, as long as no byte is used. -/
def EndsWithin (Γ : Schema) : (k : Nat) → String → Prop
  | 0, _ => False
  | k + 1, name => ∃ d, Γ.find? name = some d ∧ ∀ m ∈ d.direct, Γ.EndsWithin k m

/-- With a budget of `k` references, a value of the shape is decoded up to its next byte. -/
def Grounded (Γ : Schema) (k : Nat) (s : Shape) : Prop := ∀ m ∈ s.direct, Γ.EndsWithin k m

variable {Γ : Schema}

theorem EndsWithin.succ {k : Nat} {name : String} (h : Γ.EndsWithin k name) :
    Γ.EndsWithin (k + 1) name := by
  induction k generalizing name with
  | zero => cases h
  | succ k ih =>
    obtain ⟨d, hd, hm⟩ := h
    exact ⟨d, hd, fun m hmem => ih (hm m hmem)⟩

theorem EndsWithin.mono {k l : Nat} {name : String} (h : Γ.EndsWithin k name) (hkl : k ≤ l) :
    Γ.EndsWithin l name := by
  induction hkl with
  | refl => exact h
  | step _ ih => exact ih.succ

/-- The declared names. -/
def names (Γ : Schema) : Finset String := (Γ.decls.map Prod.fst).toFinset

theorem card_names_le (Γ : Schema) : Γ.names.card ≤ Γ.decls.length := by
  simpa [names] using List.toFinset_card_le (Γ.decls.map Prod.fst)

theorem EndsWithin.mem_names {k : Nat} {name : String} (h : Γ.EndsWithin k name) :
    name ∈ Γ.names := by
  cases k with
  | zero => cases h
  | succ k =>
    obtain ⟨d, hd, -⟩ := h
    obtain ⟨ds, ds', hds, -⟩ := List.lookup_eq_some_iff.1 hd
    simp [names, hds]

open Classical in
/-- The names whose references end within `k` steps. -/
noncomputable def ending (Γ : Schema) (k : Nat) : Finset String := Γ.names.filter (Γ.EndsWithin k)

theorem mem_ending {k : Nat} {name : String} : name ∈ Γ.ending k ↔ Γ.EndsWithin k name := by
  simp only [ending, Finset.mem_filter, and_iff_right_iff_imp]
  exact EndsWithin.mem_names

theorem ending_subset {k : Nat} : Γ.ending k ⊆ Γ.names :=
  fun _ hm => (mem_ending.1 hm).mem_names

theorem ending_mono {k l : Nat} (h : k ≤ l) : Γ.ending k ⊆ Γ.ending l :=
  fun _ hm => mem_ending.2 ((mem_ending.1 hm).mono h)

/-- Where one more step adds no name, no further step does. -/
theorem ending_succ_of_eq {k : Nat} (h : Γ.ending k = Γ.ending (k + 1)) :
    Γ.ending (k + 1) = Γ.ending (k + 2) := by
  refine (ending_mono (Nat.le_succ _)).antisymm fun name hname => ?_
  obtain ⟨d, hd, hm⟩ := mem_ending.1 hname
  refine mem_ending.2 ⟨d, hd, fun m hmem => ?_⟩
  rw [← mem_ending, h, mem_ending]
  exact hm m hmem

/-- References that end at all end within as many steps as there are declared names. -/
theorem EndsWithin.within_length {k : Nat} {name : String} (h : Γ.EndsWithin k name) :
    Γ.EndsWithin Γ.decls.length name := by
  rcases Nat.le_total k Γ.decls.length with hk | hk
  · exact h.mono hk
  -- each step adds a name or is followed by none that does, and only declared names can be added
  have hcard : (Γ.ending k).card = (Γ.ending Γ.decls.length).card := by
    refine Nat.stabilises_of_monotone (f := fun k => (Γ.ending k).card) ?_ ?_ ?_ hk
    · exact fun i j hij => Finset.card_le_card (ending_mono hij)
    · exact fun i => (Finset.card_le_card ending_subset).trans Γ.card_names_le
    · intro i hi
      have := Finset.eq_of_subset_of_card_le (ending_mono (Nat.le_succ i)) hi.ge
      exact congrArg Finset.card (ending_succ_of_eq this)
  rw [← mem_ending] at h ⊢
  rwa [Finset.eq_of_subset_of_card_le (ending_mono hk) hcard.le]

/-- A reference leads to a declared type all of whose slots on the wire are grounded. -/
theorem Grounded.slot {k : Nat} {name : String} {slots : List Slot} {slot : Slot}
    (h : Γ.EndsWithin (k + 1) name) (hf : Γ.find? name = some (.record slots))
    (hslot : slot ∈ slots) (ho : slot.offWire = false) : Γ.Grounded k slot.shape := by
  obtain ⟨d, hd, hm⟩ := h
  obtain rfl : d = .record slots := Option.some.inj (hd.symm.trans hf)
  intro m hmem
  exact hm m (List.mem_flatMap.2 ⟨slot, hslot, by simpa [ho] using hmem⟩)

/-! ### Shapes with values -/

theorem exists_mem_zip {α β : Type} {as : List α} {bs : List β} {a : α}
    (hl : as.length = bs.length) (h : a ∈ as) : ∃ b, (a, b) ∈ as.zip bs := by
  rw [← List.map_fst_zip hl.le] at h
  obtain ⟨⟨a, b⟩, hab, rfl⟩ := List.mem_map.1 h
  exact ⟨b, hab⟩

/-- The references out of the shape of a value end before the value does. -/
theorem Fits.grounded_height {s : Shape} {v : Value} (h : Γ.Fits s v) :
    Γ.Grounded (v.height + 1) s := by
  induction h with
  | scalar _ | cast _ _ _ | converted _ _ | absent | present _ _ | seq _ _ _ | map _ _ _ _ _ _ =>
    intro m hm
    cases hm
  | delegate _ ih | staged _ ih => exact ih
  | @array size s vs hl _ ih =>
    intro m hm
    cases vs with
    | nil => simp [Shape.direct, ← hl] at hm
    | cons v vs =>
      have hm' : m ∈ s.direct := by simpa [Shape.direct, ← hl] using hm
      refine (ih v List.mem_cons_self m hm').mono (Nat.succ_le_succ ?_)
      exact (Value.height_le_of_mem List.mem_cons_self).trans (Nat.le_succ _)
  | @record name slots vs hf hl _ ih =>
    intro m hm
    obtain rfl := List.mem_singleton.1 hm
    refine ⟨.record slots, hf, fun n hn => ?_⟩
    obtain ⟨slot, hslot, hn⟩ := List.mem_flatMap.1 hn
    obtain ⟨v, hv⟩ := exists_mem_zip hl hslot
    cases ho : slot.offWire with
    | true => simp [ho] at hn
    | false =>
      refine (ih (slot, v) hv ho n (by simpa [ho] using hn)).mono (Nat.succ_le_succ ?_)
      exact Value.height_le_of_mem (List.of_mem_zip hv).2
  | empty hf | held hf _ _ _ _ =>
    intro m hm
    obtain rfl := List.mem_singleton.1 hm
    exact ⟨_, hf, fun n hn => by cases hn⟩

/-- A budget of one reference for each declared name is enough for a shape with a value. -/
theorem Fits.grounded {s : Shape} {v : Value} (h : Γ.Fits s v) : Γ.Grounded Γ.decls.length s :=
  fun m hm => (h.grounded_height m hm).within_length

theorem blankNamed_of_default {k : Nat} {name : String} {v : Value}
    (h : Γ.defaults.lookup name = some v) : Γ.blankNamed k name = v := by
  rw [blankNamed.eq_def, h]

theorem blankNamed_of_find {k : Nat} {name : String} {d : Decl}
    (h : Γ.defaults.lookup name = none) (hf : Γ.find? name = some d) :
    Γ.blankNamed (k + 1) name = d.blank (Γ.blankNamed k) := by
  rw [blankNamed.eq_def, h, hf]

/-- The blank value of a name is a value of it, if that of its declaration is. -/
theorem DefaultsFit.blankNamed {k : Nat} {name : String} {d : Decl} (hΓ : Γ.DefaultsFit)
    (hf : Γ.find? name = some d) (hk : Γ.EndsWithin k name)
    (h : ∀ l, k = l + 1 → Γ.Fits (.ref name) (d.blank (Γ.blankNamed l))) :
    Γ.Fits (.ref name) (Γ.blankNamed k name) := by
  cases hv : Γ.defaults.lookup name with
  | some v =>
    rw [blankNamed_of_default hv]
    exact hΓ name v hv
  | none =>
    cases k with
    | zero => cases hk
    | succ k =>
      rw [blankNamed_of_find hv hf]
      exact h k rfl

/-- A shape with a value has a blank value, if references are followed far enough. -/
theorem Fits.blank_of_grounded {s : Shape} {v : Value} {k : Nat} (h : Γ.Fits s v)
    (hΓ : Γ.DefaultsFit) (hk : Γ.Grounded k s) : Γ.Fits s (s.blank (Γ.blankNamed k)) := by
  induction h generalizing k with
  | @scalar s d _ => exact .scalar s.has_blank
  | @cast s w d hs hw _ => exact .cast hs hw s.has_blank
  | @converted c w d hc _ => exact .converted hc c.carrier.has_blank
  | delegate _ ih => exact .delegate (ih hk)
  | staged _ ih => exact .staged (ih hk)
  | absent | present _ _ => exact .absent
  | @array size s vs hl _ ih =>
    refine .array List.length_replicate fun v hv => ?_
    obtain ⟨hsize, rfl⟩ := List.mem_replicate.1 hv
    obtain ⟨u, hu⟩ := List.exists_mem_of_length_pos (by omega : 0 < vs.length)
    exact ih u hu fun m hm => hk m (by simpa [Shape.direct, hsize] using hm)
  | seq _ _ _ => exact .seq (by decide) (by simp)
  | map _ _ _ _ _ _ => exact .map (by decide) (by simp) (by simp) (by simp)
  | @record name slots vs hf hl _ ih =>
    have hname := hk name List.mem_cons_self
    refine hΓ.blankNamed hf hname ?_
    rintro k rfl
    refine .record hf (by simp) fun p hp ho => ?_
    rw [← List.map_prod_left_eq_zip] at hp
    obtain ⟨slot, hslot, rfl⟩ := List.mem_map.1 hp
    obtain ⟨v, hv⟩ := exists_mem_zip hl hslot
    exact ih (slot, v) hv ho (Grounded.slot hname hf hslot ho)
  | empty hf | held hf _ _ _ _ =>
    exact hΓ.blankNamed hf (hk _ List.mem_cons_self) fun _ _ => .empty hf

/-- The blank value of a shape with a value is a value of the shape. -/
theorem Fits.blank {s : Shape} {v : Value} (h : Γ.Fits s v) (hΓ : Γ.DefaultsFit) :
    Γ.Fits s (Γ.blank s) :=
  h.blank_of_grounded hΓ h.grounded

end Schema

end Marshal
