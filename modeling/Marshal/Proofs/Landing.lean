import Marshal.Proofs.Typing
import Mathlib.Data.List.Forall2
import Mathlib.Logic.Relation

/-!
# What a receiver holds in the end

`Schema.Part` relates a value to its parts on the wire, each with its shape, and `Schema.Within` to
all that is inside it.  In these terms

* `Schema.Exact` says that nothing is lost on the wire: every cast and every conversion inside the
  value can be undone, and no map key has a slot off the wire;
* `Schema.Whole` says that no record inside the value has a slot off the wire.

`Schema.Lands` describes the receiver after decoding: `w` is what `v` becomes in the receiver `r`.
Slots off the wire are those of the receiver where records and arrays are overwritten in place, and
those of a blank value wherever a value is read afresh.  Maps hold their entries in the order of the
keys, whatever the order they were visited in.  Where no slot is off the wire nothing of the
receiver is left, and `w` is `v` with its maps in order (`Schema.Lands.eq_sorted`).
-/

namespace Marshal

namespace Schema

/-! ### Inside a value -/

/-- The second pair is a part of the first one: a shape with a value of it. -/
inductive Part (Γ : Schema) : Shape × Value → Shape × Value → Prop where
  | delegate {s v} : Part Γ (.delegate s, v) (s, v)
  | staged {s v} : Part Γ (.staged s, v) (s, v)
  | present {s v} : Part Γ (.option s, .present v) (s, v)
  | array {size s vs v} (h : v ∈ vs) : Part Γ (.array size s, .items vs) (s, v)
  | seq {s vs v} (h : v ∈ vs) : Part Γ (.seq s, .items vs) (s, v)
  | key {keys key value es e} (h : e ∈ es) :
      Part Γ (.map keys key value, .entries es) (key, e.1)
  | value {keys key value es e} (h : e ∈ es) :
      Part Γ (.map keys key value, .entries es) (value, e.2)
  | slot {name slots vs slot v} (hf : Γ.find? name = some (.record slots))
      (h : (slot, v) ∈ slots.zip vs) (ho : slot.offWire = false) :
      Part Γ (.ref name, .record vs) (slot.shape, v)
  | held {name u tag m v} (hf : Γ.find? name = some (.holder u)) (hm : u.member? tag = some m) :
      Part Γ (.ref name, .present (.member tag v)) (m.shape, v)

/-- The second pair is inside the first one, or is that pair. -/
abbrev Within (Γ : Schema) : Shape × Value → Shape × Value → Prop := Relation.ReflTransGen Γ.Part

/-- No record inside the value has a slot off the wire. -/
def Whole (Γ : Schema) (s : Shape) (v : Value) : Prop :=
  ∀ ⦃name u slots⦄, Γ.Within (s, v) (.ref name, u) → Γ.find? name = some (.record slots) →
    ∀ slot ∈ slots, slot.offWire = false

/-- The wire loses nothing of the value but its slots off the wire, and no key has any. -/
structure Exact (Γ : Schema) (s : Shape) (v : Value) : Prop where
  cast : ∀ ⦃t w d⦄, Γ.Within (s, v) (.scalar t (some w), .datum d) →
    w.scalar.convert t (t.convert w.scalar d) = d
  converted : ∀ ⦃c w d⦄, Γ.Within (s, v) (.converted c w, .datum d) → c.ofWire (c.toWire d) = d
  keys : ∀ ⦃keys key value es⦄, Γ.Within (s, v) (.map keys key value, .entries es) →
    ∀ e ∈ es, Γ.Whole key e.1

/-- The maps inside the value have their entries in the order of their keys. -/
def Settled (Γ : Schema) (s : Shape) (v : Value) : Prop :=
  ∀ ⦃keys key value es⦄, Γ.Within (s, v) (.map keys key value, .entries es) →
    es.Pairwise (Entries.Before keys.compare)

variable {Γ : Schema} {s s' : Shape} {v v' : Value}

/-- The parts of a value are values of their shapes. -/
theorem Fits.part (h : Γ.Fits s v) (hp : Γ.Part (s, v) (s', v')) : Γ.Fits s' v' := by
  cases hp with
  | delegate => cases h with | delegate h => exact h
  | staged => cases h with | staged h => exact h
  | present => cases h with | present h => exact h
  | array hm => cases h with | array _ h => exact h _ hm
  | seq hm => cases h with | seq _ h => exact h _ hm
  | key he => cases h with | map _ _ hk _ => exact hk _ he
  | value he => cases h with | map _ _ _ hv => exact hv _ he
  | slot hf hm ho =>
    cases h with
    | record hf' _ h =>
      cases hf.symm.trans hf'
      exact h _ hm ho
  | held hf hm =>
    cases h with
    | held hf' hm' _ h =>
      cases hf.symm.trans hf'
      cases hm.symm.trans hm'
      exact h

theorem Fits.length_slots {name : String} {slots : List Slot} {vs : List Value}
    (h : Γ.Fits (.ref name) (.record vs)) (hf : Γ.find? name = some (.record slots)) :
    slots.length = vs.length := by
  cases h with
  | record hf' hl _ =>
    cases hf.symm.trans hf'
    exact hl

theorem Whole.part (h : Γ.Whole s v) (hp : Γ.Part (s, v) (s', v')) : Γ.Whole s' v' :=
  fun _ _ _ hw => h (hw.head hp)

theorem Exact.part (h : Γ.Exact s v) (hp : Γ.Part (s, v) (s', v')) : Γ.Exact s' v' where
  cast _ _ _ hw := h.cast (hw.head hp)
  converted _ _ _ hw := h.converted (hw.head hp)
  keys _ _ _ _ hw := h.keys (hw.head hp)

/-- Nothing is lost of a value if nothing is lost at the top of it and nothing of its parts. -/
theorem Exact.of_parts
    (hcast : ∀ t w d, (s, v) = (.scalar t (some w), .datum d) →
      w.scalar.convert t (t.convert w.scalar d) = d)
    (hconv : ∀ c w d, (s, v) = (.converted c w, .datum d) → c.ofWire (c.toWire d) = d)
    (hkeys : ∀ keys key value es, (s, v) = (.map keys key value, .entries es) →
      ∀ e ∈ es, Γ.Whole key e.1)
    (hparts : ∀ s' v', Γ.Part (s, v) (s', v') → Γ.Exact s' v') : Γ.Exact s v where
  cast t w d h := by
    rcases h.cases_head with heq | ⟨⟨s', v'⟩, hp, hw⟩
    · exact hcast t w d heq
    · exact (hparts s' v' hp).cast hw
  converted c w d h := by
    rcases h.cases_head with heq | ⟨⟨s', v'⟩, hp, hw⟩
    · exact hconv c w d heq
    · exact (hparts s' v' hp).converted hw
  keys keys key value es h := by
    rcases h.cases_head with heq | ⟨⟨s', v'⟩, hp, hw⟩
    · exact hkeys keys key value es heq
    · exact (hparts s' v' hp).keys hw

/-- The maps of a value are in order if the value is no map out of order and those of its parts
are. -/
theorem Settled.of_parts
    (hself : ∀ keys key value es, (s, v) = (.map keys key value, .entries es) →
      es.Pairwise (Entries.Before keys.compare))
    (hparts : ∀ s' v', Γ.Part (s, v) (s', v') → Γ.Settled s' v') : Γ.Settled s v := by
  intro keys key value es h
  rcases h.cases_head with heq | ⟨⟨s', v'⟩, hp, hw⟩
  · exact hself keys key value es heq
  · exact hparts s' v' hp hw

/-! ### The value in the receiver -/

/-- Decoding what was written for `v` into the receiver `r` leaves `w`. -/
inductive Lands (Γ : Schema) : Shape → (r v w : Value) → Prop where
  | scalar {s cast r d} : Lands Γ (.scalar s cast) r (.datum d) (.datum d)
  | converted {c w r d} : Lands Γ (.converted c w) r (.datum d) (.datum d)
  | delegate {s r v w} (h : Lands Γ s r v w) : Lands Γ (.delegate s) r v w
  | staged {s r v w} (h : Lands Γ s (Γ.blank s) v w) : Lands Γ (.staged s) r v w
  | absent {s r} : Lands Γ (.option s) r .absent .absent
  | present {s r v w} (h : Lands Γ s (Γ.blank s) v w) :
      Lands Γ (.option s) r (.present v) (.present w)
  /-- Each item of an array lands in the item of the receiver at its place. -/
  | array {size s rs vs ws} (hr : rs.length = vs.length) (hw : vs.length = ws.length)
      (h : ∀ r v w, ((r, v), w) ∈ (rs.zip vs).zip ws → Lands Γ s r v w) :
      Lands Γ (.array size s) (.items rs) (.items vs) (.items ws)
  | seq {s r vs ws} (hw : vs.length = ws.length)
      (h : ∀ v w, (v, w) ∈ vs.zip ws → Lands Γ s (Γ.blank s) v w) :
      Lands Γ (.seq s) r (.items vs) (.items ws)
  | map {keys key value r es fs} (hw : es.length = fs.length)
      (hk : ∀ e f, (e, f) ∈ es.zip fs → Lands Γ key (Γ.blank key) e.1 f.1)
      (hv : ∀ e f, (e, f) ∈ es.zip fs → Lands Γ value (Γ.blank value) e.2 f.2) :
      Lands Γ (.map keys key value) r (.entries es) (.entries (Entries.inOrder keys.compare fs))
  /-- Each slot lands in the slot of the receiver at its place, and those off the wire are left. -/
  | record {name slots rs vs ws} (hf : Γ.find? name = some (.record slots))
      (hr : slots.length = rs.length) (hv : slots.length = vs.length)
      (hw : slots.length = ws.length)
      (hoff : ∀ slot r v w, ((slot, r, v), w) ∈ (slots.zip (rs.zip vs)).zip ws →
        slot.offWire = true → w = r)
      (h : ∀ slot r v w, ((slot, r, v), w) ∈ (slots.zip (rs.zip vs)).zip ws →
        slot.offWire = false → Lands Γ slot.shape r v w) :
      Lands Γ (.ref name) (.record rs) (.record vs) (.record ws)
  | empty {name u r} (hf : Γ.find? name = some (.holder u)) : Lands Γ (.ref name) r .absent .absent
  | held {name u tag m r v w} (hf : Γ.find? name = some (.holder u))
      (hm : u.member? tag = some m) (h : Lands Γ m.shape (Γ.blank m.shape) v w) :
      Lands Γ (.ref name) r (.present (.member tag v)) (.present (.member tag w))

/-- A list that is related to another item by item through a function is its image. -/
theorem eq_map_of_zip {α β : Type} {f : α → β} {as : List α} {bs : List β}
    (hl : as.length = bs.length) (h : ∀ a b, (a, b) ∈ as.zip bs → b = f a) : bs = as.map f := by
  induction as generalizing bs with
  | nil => exact List.eq_nil_of_length_eq_zero hl.symm
  | cons a as ih =>
    cases bs with
    | nil => cases hl
    | cons b bs =>
      rw [List.map_cons, h a b List.mem_cons_self,
        ih (Nat.succ.inj hl) fun a b hab => h a b (List.mem_cons_of_mem _ hab)]

theorem mem_zip_fst {α β γ : Type} {as : List α} {bs : List β} {cs : List γ} {a : α} {b : β} {c : γ}
    (hl : bs.length ≤ cs.length) (h : (a, b, c) ∈ as.zip (bs.zip cs)) : (a, b) ∈ as.zip bs := by
  have hm := List.mem_map_of_mem (f := Prod.map id Prod.fst) h
  rwa [← List.zip_map_right, List.map_fst_zip hl] at hm

theorem mem_zip_snd {α β γ : Type} {as : List α} {bs : List β} {cs : List γ} {a : α} {b : β} {c : γ}
    (hl : cs.length ≤ bs.length) (h : (a, b, c) ∈ as.zip (bs.zip cs)) : (a, c) ∈ as.zip cs := by
  have hm := List.mem_map_of_mem (f := Prod.map id Prod.snd) h
  rwa [← List.zip_map_right, List.map_snd_zip hl] at hm

/-- Lists that are related item by item have the same image if related items have. -/
theorem map_eq_map_of_zip {α β γ : Type} {f : α → γ} {g : β → γ} {as : List α} {bs : List β}
    (hl : as.length = bs.length) (h : ∀ a b, (a, b) ∈ as.zip bs → g b = f a) :
    bs.map g = as.map f := by
  refine eq_map_of_zip (by simpa using hl) fun a c hac => ?_
  rw [List.zip_map_right] at hac
  obtain ⟨⟨a', b⟩, hab, heq⟩ := List.mem_map.1 hac
  cases heq
  exact h a' b hab

/-- Where no slot is off the wire, the receiver ends up with the value, up to the order in which
maps visit their entries. -/
theorem Lands.sorted_eq {r w : Value} (h : Γ.Lands s r v w) (hv : Γ.Fits s v)
    (hs : Γ.Whole s v) : w.sorted = v.sorted := by
  induction h with
  | scalar | converted | absent | empty _ => rfl
  | delegate _ ih => exact ih (hv.part .delegate) (hs.part .delegate)
  | staged _ ih => exact ih (hv.part .staged) (hs.part .staged)
  | present _ ih =>
    rw [Value.sorted, ih (hv.part .present) (hs.part .present), Value.sorted]
  | @array size s rs vs ws hr hw _ ih =>
    have hws : ws.map Value.sorted = (rs.zip vs).map (Value.sorted ∘ Prod.snd) := by
      refine map_eq_map_of_zip (by simp [hr, hw]) ?_
      rintro ⟨r, v⟩ w hm
      have hmem := (List.of_mem_zip (List.of_mem_zip hm).1).2
      exact ih r v w hm (hv.part (.array hmem)) (hs.part (.array hmem))
    rw [Value.sorted_items, Value.sorted_items, hws, ← List.map_map, List.map_snd_zip hr.ge]
  | @seq s r vs ws hw _ ih =>
    rw [Value.sorted_items, Value.sorted_items, map_eq_map_of_zip hw fun v w hm =>
      ih v w hm (hv.part (.seq (List.of_mem_zip hm).1)) (hs.part (.seq (List.of_mem_zip hm).1))]
  | @map keys key value r es fs hw _ _ ihk ihv =>
    have hfs : fs.map (Prod.map Value.sorted Value.sorted) =
        es.map (Prod.map Value.sorted Value.sorted) := by
      refine map_eq_map_of_zip hw fun e f hm => Prod.ext ?_ ?_
      · have he := (List.of_mem_zip hm).1
        exact ihk e f hm (hv.part (.key he)) (hs.part (.key he))
      · have he := (List.of_mem_zip hm).1
        exact ihv e f hm (hv.part (.value he)) (hs.part (.value he))
    -- the order of the map is another one than that of the sorted value
    cases hv with
    | map _ hd _ _ =>
      rw [Value.sorted_entries, Value.sorted_entries, ← hfs]
      refine congrArg _ (Entries.inOrder_eq_of_perm ((Entries.perm_inOrder fs).map _).symm ?_).symm
      exact hfs ▸ Entries.pairwise_apart_sorted hd
  | @record name slots rs vs ws hf hr hv' hw _ _ ih =>
    have hws : ws.map Value.sorted =
        (slots.zip (rs.zip vs)).map (Value.sorted ∘ Prod.snd ∘ Prod.snd) := by
      refine map_eq_map_of_zip (by simp; omega) ?_
      rintro ⟨slot, r, v⟩ w hm
      have hm' := (List.of_mem_zip hm).1
      have ho := hs .refl hf slot (List.of_mem_zip hm').1
      have hpart := Part.slot hf (mem_zip_snd (by omega) hm') ho
      exact ih slot r v w hm ho (hv.part hpart) (hs.part hpart)
    rw [Value.sorted_record, Value.sorted_record, hws, ← List.map_map, ← List.map_map,
      List.map_snd_zip (by simp; omega), List.map_snd_zip (by omega)]
  | held hf hm _ ih =>
    simp only [Value.sorted, ih (hv.part (.held hf hm)) (hs.part (.held hf hm))]

theorem exists_zip_mem {α β : Type} {as : List α} {bs : List β} {b : β}
    (hl : as.length = bs.length) (h : b ∈ bs) : ∃ a, (a, b) ∈ as.zip bs := by
  rw [← List.map_snd_zip hl.ge] at h
  obtain ⟨⟨a, b⟩, hab, rfl⟩ := List.mem_map.1 h
  exact ⟨a, hab⟩

/-- The keys that are read are apart if those that were written are separate. -/
theorem apart_of_lands {cmp : Value → Value → Ordering} {es fs : Entries}
    (hd : es.Pairwise (Entries.Separate cmp)) (hl : es.length = fs.length)
    (hfits : ∀ e ∈ es, Γ.Fits s e.1) (hwhole : ∀ e ∈ es, Γ.Whole s e.1)
    (h : ∀ e f, (e, f) ∈ es.zip fs → Γ.Lands s (Γ.blank s) e.1 f.1) :
    fs.Pairwise (Entries.Apart cmp) := by
  have hkeys : (fs.map fun f => f.1.sorted) = es.map fun e => e.1.sorted := by
    refine map_eq_map_of_zip hl fun e f hef => ?_
    have he := (List.of_mem_zip hef).1
    exact (h e f hef).sorted_eq (hfits e he) (hwhole e he)
  exact (Entries.pairwise_separate_congr hkeys hd).imp Entries.Separate.apart

/-- The receiver ends up with its maps in order. -/
theorem Lands.settled {r w : Value} (h : Γ.Lands s r v w) (hv : Γ.Fits s v) (hx : Γ.Exact s v) :
    Γ.Settled s w := by
  induction h with
  | scalar | converted | absent | empty _ => exact .of_parts (by simp) fun _ _ hp => by cases hp
  | delegate _ ih =>
    refine .of_parts (by simp) fun _ _ hp => ?_
    cases hp with
    | delegate => exact ih (hv.part .delegate) (hx.part .delegate)
  | staged _ ih =>
    refine .of_parts (by simp) fun _ _ hp => ?_
    cases hp with
    | staged => exact ih (hv.part .staged) (hx.part .staged)
  | present _ ih =>
    refine .of_parts (by simp) fun _ _ hp => ?_
    cases hp with
    | present => exact ih (hv.part .present) (hx.part .present)
  | @array size s rs vs ws hr hw _ ih =>
    refine .of_parts (by simp) fun _ _ hp => ?_
    cases hp with
    | array hm =>
      have hl : (rs.zip vs).length = ws.length := by simp [hr, hw]
      obtain ⟨⟨r, v⟩, hrvw⟩ := exists_zip_mem hl hm
      have hmem := (List.of_mem_zip (List.of_mem_zip hrvw).1).2
      exact ih r v _ hrvw (hv.part (.array hmem)) (hx.part (.array hmem))
  | @seq s r vs ws hw _ ih =>
    refine .of_parts (by simp) fun _ _ hp => ?_
    cases hp with
    | seq hm =>
      obtain ⟨v, hvw⟩ := exists_zip_mem hw hm
      have hmem := (List.of_mem_zip hvw).1
      exact ih v _ hvw (hv.part (.seq hmem)) (hx.part (.seq hmem))
  | @map keys key value r es fs hw hk _ ihk ihv =>
    have hzip {f : Value × Value} (hm : f ∈ Entries.inOrder keys.compare fs) :
        ∃ e, (e, f) ∈ es.zip fs := exists_zip_mem hw ((Entries.perm_inOrder fs).mem_iff.1 hm)
    refine .of_parts ?_ fun _ _ hp => ?_
    · rintro _ _ _ _ ⟨⟩
      cases hv with
      | map _ hd hkey _ =>
        exact Entries.pairwise_inOrder (apart_of_lands hd hw hkey (hx.keys .refl) hk)
    · cases hp with
      | key hm =>
        obtain ⟨e, hef⟩ := hzip hm
        have he := (List.of_mem_zip hef).1
        exact ihk e _ hef (hv.part (.key he)) (hx.part (.key he))
      | value hm =>
        obtain ⟨e, hef⟩ := hzip hm
        have he := (List.of_mem_zip hef).1
        exact ihv e _ hef (hv.part (.value he)) (hx.part (.value he))
  | @record name slots rs vs ws hf hr hv' hw _ _ ih =>
    refine .of_parts (by simp) fun _ _ hp => ?_
    cases hp with
    | slot hf' hm ho =>
      cases hf.symm.trans hf'
      have hfst : (slots.zip (rs.zip vs)).map Prod.fst = slots := List.map_fst_zip (by simp; omega)
      rw [← hfst, List.zip_map_left] at hm
      obtain ⟨⟨⟨slot, r, v⟩, w⟩, hx', heq⟩ := List.mem_map.1 hm
      cases heq
      have hpart := Part.slot hf (mem_zip_snd (by omega) (List.of_mem_zip hx').1) ho
      exact ih slot r v w hx' ho (hv.part hpart) (hx.part hpart)
  | held hf hm _ ih =>
    refine .of_parts (by simp) fun _ _ hp => ?_
    cases hp with
    | held hf' hm' =>
      cases hf.symm.trans hf'
      cases hm.symm.trans hm'
      exact ih (hv.part (.held hf hm)) (hx.part (.held hf hm))

end Schema

end Marshal
