import Marshal.Proofs.Equality
import Marshal.Proofs.Encoding

/-!
# What the bytes and the comparison see of a value

A slot may be left out of the bytes, of the comparison, or of both.  A `View` says which slots are
looked at, and when two maps have the same keys: the bytes also show the order in which a map is
visited.  Two values are alike in a view (`Schema.AlikeIn`) if they agree in all that is looked at.

* Values that are alike in the view of the bytes are written alike (`Schema.AlikeIn.encode_eq`).
* Values that are alike in the view of the comparison are equal to the same values
  (`Schema.AlikeIn.equals_eq`).
* `Schema.Differ` is a difference in sight of the comparison: two leaves at the same position that
  are not equal.  Values that differ so are unequal (`Schema.Differ.not_same`), and there is no
  other way to be unequal (`Schema.Comparable.same_or_differ`).

So the marks of a slot decide what is seen of it, and nothing else does (`Schema.seen_exactly`).
-/

namespace Marshal

/-- What is looked at in a value. -/
structure View where
  /-- Two maps, whose keys compare as given, have the same keys. -/
  keys : (Value → Value → Ordering) → Entries → Entries → Prop
  /-- What the slot holds is looked at. -/
  sees : Slot → Prop

namespace View

/-- What is written is seen, and so is the order of the entries of a map. -/
def bytes : View where
  keys _ es fs := es.map Prod.fst = fs.map Prod.fst
  sees slot := slot.offWire = false

/-- What is compared is seen, and the keys of a map as they compare, without their order. -/
def comparison : View where
  keys cmp es fs := (Entries.places cmp es).Perm (Entries.places cmp fs)
  sees slot := slot.uncompared = false

end View

theorem flatMap_eq_of_zip {α β γ : Type} {f : α → List γ} {g : β → List γ} {as : List α}
    {bs : List β} (hl : as.length = bs.length) (h : ∀ a b, (a, b) ∈ as.zip bs → f a = g b) :
    as.flatMap f = bs.flatMap g := by
  rw [List.flatMap_def, List.flatMap_def,
    Schema.map_eq_map_of_zip hl fun a b hab => (h a b hab).symm]

namespace Schema

/-- The values `a` and `b` of a shape agree in all that is looked at. -/
inductive AlikeIn (Γ : Schema) (view : View) : Shape → (a b : Value) → Prop where
  | refl {s a} : AlikeIn Γ view s a a
  | delegate {s a b} (h : AlikeIn Γ view s a b) : AlikeIn Γ view (.delegate s) a b
  | staged {s a b} (h : AlikeIn Γ view s a b) : AlikeIn Γ view (.staged s) a b
  | present {s a b} (h : AlikeIn Γ view s a b) :
      AlikeIn Γ view (.option s) (.present a) (.present b)
  | array {size s as bs} (hl : as.length = bs.length)
      (h : ∀ a b, (a, b) ∈ as.zip bs → AlikeIn Γ view s a b) :
      AlikeIn Γ view (.array size s) (.items as) (.items bs)
  | seq {s as bs} (hl : as.length = bs.length)
      (h : ∀ a b, (a, b) ∈ as.zip bs → AlikeIn Γ view s a b) :
      AlikeIn Γ view (.seq s) (.items as) (.items bs)
  /-- The keys are the same, and the two values of each key are alike. -/
  | map {keys key value es fs} (hk : view.keys keys.compare es fs)
      (h : ∀ k a b, Entries.find? keys.compare k es = some a →
        Entries.find? keys.compare k fs = some b → AlikeIn Γ view value a b) :
      AlikeIn Γ view (.map keys key value) (.entries es) (.entries fs)
  | record {name slots as bs} (hf : Γ.find? name = some (.record slots))
      (hl : as.length = bs.length)
      (h : ∀ slot a b, ((slot, a), b) ∈ (slots.zip as).zip bs → view.sees slot →
        AlikeIn Γ view slot.shape a b) :
      AlikeIn Γ view (.ref name) (.record as) (.record bs)
  | held {name u tag m a b} (hf : Γ.find? name = some (.holder u)) (hm : u.member? tag = some m)
      (h : AlikeIn Γ view m.shape a b) :
      AlikeIn Γ view (.ref name) (.present (.member tag a)) (.present (.member tag b))

variable {Γ : Schema} {view : View} {s : Shape} {a b c : Value}

/-! ### The view of the bytes -/

theorem Fits.apart {keys : Keys} {key value : Shape} {es : Entries}
    (h : Γ.Fits (.map keys key value) (.entries es)) :
    es.Pairwise (Entries.Apart keys.compare) := by
  cases h with
  | map _ hd _ _ => exact hd.imp Entries.Separate.apart

/-- Values that are alike in the view of the bytes are written alike. -/
theorem AlikeIn.encode_eq (h : Γ.AlikeIn .bytes s a b) (ha : Γ.Fits s a) (hb : Γ.Fits s b)
    (style : Style) : Γ.encode style s a = Γ.encode style s b := by
  rw [ha.encode_style, hb.encode_style]
  induction h with
  | refl => rfl
  | delegate _ ih => exact ih (ha.part .delegate) (hb.part .delegate)
  | staged _ ih => exact ih (ha.part .staged) (hb.part .staged)
  | present _ ih => rw [encode_present, encode_present, ih (ha.part .present) (hb.part .present)]
  | array hl _ ih =>
    rw [encode_array, encode_array]
    refine flatMap_eq_of_zip hl fun x y hxy => ?_
    obtain ⟨hx, hy⟩ := List.of_mem_zip hxy
    exact ih x y hxy (ha.part (.array hx)) (hb.part (.array hy))
  | seq hl _ ih =>
    rw [encode_seq (by simp), encode_seq (by simp), hl]
    refine congrArg _ (flatMap_eq_of_zip hl fun x y hxy => ?_)
    obtain ⟨hx, hy⟩ := List.of_mem_zip hxy
    exact ih x y hxy (ha.part (.seq hx)) (hb.part (.seq hy))
  | @map keys key value es fs hk _ ih =>
    have hkeys : es.map Prod.fst = fs.map Prod.fst := hk
    have hl : es.length = fs.length := by simpa using congrArg List.length hkeys
    rw [encode_map, encode_map, hl]
    refine congrArg _ (flatMap_eq_of_zip hl fun e f hef => ?_)
    obtain ⟨he, hf⟩ := List.of_mem_zip hef
    have hkey : e.1 = f.1 := by
      obtain ⟨i, hi, hj⟩ := mem_zip_iff.1 hef
      have heq := congrArg (·[i]?) hkeys
      simpa [hi, hj] using heq
    have hfind := Entries.find?_of_mem ha.apart he
    have hfind' := Entries.find?_of_mem hb.apart hf
    rw [← hkey] at hfind'
    rw [hkey, ih e.1 e.2 f.2 hfind hfind' (ha.part (.value he)) (hb.part (.value hf))]
  | @record name slots as bs hf hl _ ih =>
    rw [encode_record .generic hf, encode_record .generic hf]
    refine flatMap_eq_of_zip (by simp [hl]) ?_
    rintro ⟨slot, x⟩ ⟨slot', y⟩ hxy
    -- both lists are zipped with the slots, so the two slots are the one at this place
    obtain ⟨i, hslot, hx, hslot', hy⟩ : ∃ i : Nat, slots[i]? = some slot ∧ as[i]? = some x ∧
        slots[i]? = some slot' ∧ bs[i]? = some y := by
      simpa [mem_zip_iff, List.getElem?_zip_eq_some, and_assoc] using hxy
    cases hslot.symm.trans hslot'
    cases ho : slot.offWire with
    | true => rfl
    | false =>
      have hx' := ha.part (.slot hf (mem_zip_iff.2 ⟨i, hslot, hx⟩) ho)
      have hy' := hb.part (.slot hf (mem_zip_iff.2 ⟨i, hslot, hy⟩) ho)
      simp only [Bool.false_eq_true, if_false, hx'.encode_style, hy'.encode_style]
      exact ih slot x y (mem_zip_zip_iff.2 ⟨i, hslot, hx, hy⟩) ho hx' hy'
  | held hf hm _ ih =>
    have hx := ha.part (.held hf hm)
    have hy := hb.part (.held hf hm)
    rw [encode_held .generic hf hm, encode_held .generic hf hm, hx.encode_style, hy.encode_style,
      ih hx hy]

/-! ### The view of the comparison -/

theorem AlikeIn.symm (h : Γ.AlikeIn .comparison s a b) : Γ.AlikeIn .comparison s b a := by
  induction h with
  | refl => exact .refl
  | delegate _ ih => exact .delegate ih
  | staged _ ih => exact .staged ih
  | present _ ih => exact .present ih
  | array hl _ ih => exact .array hl.symm fun x y hxy => ih y x (mem_zip_comm.1 hxy)
  | seq hl _ ih => exact .seq hl.symm fun x y hxy => ih y x (mem_zip_comm.1 hxy)
  | map hk _ ih => exact .map (List.Perm.symm hk) fun k x y hx hy => ih k y x hy hx
  | record hf hl _ ih =>
    exact .record hf hl.symm fun slot x y hxy => ih slot y x (mem_zip_zip_comm.1 hxy)
  | held hf hm _ ih => exact .held hf hm ih

/-- The first of two values that are equal may be exchanged for one that is alike. -/
theorem AlikeIn.same_left (h : Γ.AlikeIn .comparison s a b) (hb : Γ.Comparable s b)
    (hac : Γ.Same s a c) : Γ.Same s b c := by
  induction h generalizing c with
  | refl => exact hac
  | delegate _ ih => cases hac with | delegate hac => exact .delegate (ih (hb.part .delegate) hac)
  | staged _ ih => cases hac with | staged hac => exact .staged (ih (hb.part .staged) hac)
  | present _ ih => cases hac with | present hac => exact .present (ih (hb.part .present) hac)
  | array hl _ ih =>
    cases hac with
    | array hl' hac =>
      refine .array (hl.symm.trans hl') fun y z hyz => ?_
      obtain ⟨x, hyx, hxz⟩ := exists_mem_zip_between hl.ge hyz
      exact ih x y (mem_zip_comm.1 hyx) (hb.part (.array (List.of_mem_zip hyz).1)) (hac x z hxz)
  | seq hl _ ih =>
    cases hac with
    | seq hl' hac =>
      refine .seq (hl.symm.trans hl') fun y z hyz => ?_
      obtain ⟨x, hyx, hxz⟩ := exists_mem_zip_between hl.ge hyz
      exact ih x y (mem_zip_comm.1 hyx) (hb.part (.seq (List.of_mem_zip hyz).1)) (hac x z hxz)
  | @map keys key value es fs hk _ ih =>
    cases hac with
    | map hl hfound hac =>
      cases hb with
      | map hd hfs =>
        have hkeys : (Entries.places keys.compare es).Perm (Entries.places keys.compare fs) := hk
        have hlen : fs.length = es.length := by simpa using hkeys.length_eq.symm
        have hentry {f : Value × Value} (hf : f ∈ fs) :
            ∃ x, Entries.find? keys.compare f.1 es = some x :=
          Entries.exists_of_mem_places (hkeys.mem_iff.2 (Entries.mem_places hf))
        refine .map (hlen.trans hl) (fun f hf => ?_) fun f hf z hz => ?_
        · obtain ⟨x, hx⟩ := hentry hf
          obtain ⟨k, hc, hmem⟩ := Entries.exists_mem_of_find? hx
          rw [Entries.find?_congr hc]
          exact hfound (k, x) hmem
        · obtain ⟨x, hx⟩ := hentry hf
          obtain ⟨k, hc, hmem⟩ := Entries.exists_mem_of_find? hx
          rw [Entries.find?_congr hc] at hz
          exact ih f.1 x f.2 hx (Entries.find?_of_mem hd hf) (hfs f hf) (hac (k, x) hmem z hz)
  | record hf hl _ ih =>
    cases hac with
    | record hf' hla hlc hac =>
      cases hf.symm.trans hf'
      refine .record hf (hl ▸ hla) hlc fun slot y z hyz hc => ?_
      obtain ⟨x, hyx, hxz⟩ := exists_mem_zip_zip_between hla hyz
      exact ih slot x y (mem_zip_zip_comm.1 hyx) hc
        (hb.part (.slot hf (List.of_mem_zip hyz).1 hc)) (hac slot x z hxz hc)
  | held hf hm _ ih =>
    cases hac with
    | held hf' hm' hac =>
      cases hf.symm.trans hf'
      cases hm.symm.trans hm'
      exact .held hf hm (ih (hb.part (.held hf hm)) hac)

/-- The second of two values that are equal may be exchanged for one that is alike. -/
theorem AlikeIn.same_right (h : Γ.AlikeIn .comparison s a b) (hca : Γ.Same s c a) :
    Γ.Same s c b := by
  induction h generalizing c with
  | refl => exact hca
  | delegate _ ih => cases hca with | delegate hca => exact .delegate (ih hca)
  | staged _ ih => cases hca with | staged hca => exact .staged (ih hca)
  | present _ ih => cases hca with | present hca => exact .present (ih hca)
  | array hl _ ih =>
    cases hca with
    | array hl' hca =>
      refine .array (hl'.trans hl) fun z y hzy => ?_
      obtain ⟨x, hzx, hxy⟩ := exists_mem_zip_between hl'.le hzy
      exact ih x y hxy (hca z x hzx)
  | seq hl _ ih =>
    cases hca with
    | seq hl' hca =>
      refine .seq (hl'.trans hl) fun z y hzy => ?_
      obtain ⟨x, hzx, hxy⟩ := exists_mem_zip_between hl'.le hzy
      exact ih x y hxy (hca z x hzx)
  | @map keys key value es fs hk _ ih =>
    cases hca with
    | map hl hfound hca =>
      have hkeys : (Entries.places keys.compare es).Perm (Entries.places keys.compare fs) := hk
      have hlen : es.length = fs.length := by simpa using hkeys.length_eq
      refine .map (hl.trans hlen) (fun g hg => ?_) fun g hg y hy => ?_
      · exact Entries.find?_isSome_iff.2
          (hkeys.mem_iff.1 (Entries.find?_isSome_iff.1 (hfound g hg)))
      · obtain ⟨x, hx⟩ := Option.isSome_iff_exists.1 (hfound g hg)
        exact ih g.1 x y hx hy (hca g hg x hx)
  | record hf hl _ ih =>
    cases hca with
    | record hf' hlc hla hca =>
      cases hf.symm.trans hf'
      refine .record hf hlc (hl ▸ hla) fun slot z y hzy hc => ?_
      obtain ⟨x, hzx, hxy⟩ := exists_mem_zip_zip_between hla hzy
      exact ih slot x y hxy hc (hca slot z x hzx hc)
  | held hf hm _ ih =>
    cases hca with
    | held hf' hm' hca =>
      cases hf.symm.trans hf'
      cases hm.symm.trans hm'
      exact .held hf hm (ih hca)

/-! ### Differences in sight of the comparison -/

/-- At some position that is compared the values `a` and `b` of a shape have unequal leaves: data,
presence, length, keys or tags. -/
inductive Differ (Γ : Schema) : Shape → (a b : Value) → Prop where
  | scalar {s cast d e} (h : s.same d e = false) : Differ Γ (.scalar s cast) (.datum d) (.datum e)
  | converted {c w d e} (h : c.same d e = false) (h' : c.same e d = false) :
      Differ Γ (.converted c w) (.datum d) (.datum e)
  | delegate {s x y} (h : Differ Γ s x y) : Differ Γ (.delegate s) x y
  | staged {s x y} (h : Differ Γ s x y) : Differ Γ (.staged s) x y
  | appears {s y} : Differ Γ (.option s) .absent (.present y)
  | disappears {s x} : Differ Γ (.option s) (.present x) .absent
  | present {s x y} (h : Differ Γ s x y) : Differ Γ (.option s) (.present x) (.present y)
  | array {size s as bs x y} (hm : (x, y) ∈ as.zip bs) (h : Differ Γ s x y) :
      Differ Γ (.array size s) (.items as) (.items bs)
  | length {s as bs} (h : as.length ≠ bs.length) : Differ Γ (.seq s) (.items as) (.items bs)
  | seq {s as bs x y} (hm : (x, y) ∈ as.zip bs) (h : Differ Γ s x y) :
      Differ Γ (.seq s) (.items as) (.items bs)
  /-- One of the two maps has the key and the other has not. -/
  | key {keys key value es fs k} (h : (Entries.find? keys.compare k es).isSome ↔
      ¬ (Entries.find? keys.compare k fs).isSome) :
      Differ Γ (.map keys key value) (.entries es) (.entries fs)
  | value {keys key value es fs k x y} (ha : Entries.find? keys.compare k es = some x)
      (hb : Entries.find? keys.compare k fs = some y) (h : Differ Γ value x y) :
      Differ Γ (.map keys key value) (.entries es) (.entries fs)
  | slot {name slots as bs slot x y} (hf : Γ.find? name = some (.record slots))
      (hm : ((slot, x), y) ∈ (slots.zip as).zip bs) (hc : slot.uncompared = false)
      (h : Differ Γ slot.shape x y) : Differ Γ (.ref name) (.record as) (.record bs)
  | fills {name u y} (hf : Γ.find? name = some (.holder u)) :
      Differ Γ (.ref name) .absent (.present y)
  | empties {name u x} (hf : Γ.find? name = some (.holder u)) :
      Differ Γ (.ref name) (.present x) .absent
  | tag {name u tag tag' x y} (hf : Γ.find? name = some (.holder u)) (h : tag ≠ tag') :
      Differ Γ (.ref name) (.present (.member tag x)) (.present (.member tag' y))
  | held {name u tag m x y} (hf : Γ.find? name = some (.holder u)) (hm : u.member? tag = some m)
      (h : Differ Γ m.shape x y) :
      Differ Γ (.ref name) (.present (.member tag x)) (.present (.member tag y))

theorem Differ.symm (h : Γ.Differ s a b) : Γ.Differ s b a := by
  induction h with
  | scalar h => exact .scalar (Scalar.same_comm .. ▸ h)
  | converted h h' => exact .converted h' h
  | delegate _ ih => exact .delegate ih
  | staged _ ih => exact .staged ih
  | appears => exact .disappears
  | disappears => exact .appears
  | present _ ih => exact .present ih
  | array hm _ ih => exact .array (mem_zip_comm.1 hm) ih
  | length h => exact .length h.symm
  | seq hm _ ih => exact .seq (mem_zip_comm.1 hm) ih
  | key h => exact .key (iff_not_comm.1 h)
  | value ha hb _ ih => exact .value hb ha ih
  | slot hf hm hc _ ih => exact .slot hf (mem_zip_zip_comm.1 hm) hc ih
  | fills hf => exact .empties hf
  | empties hf => exact .fills hf
  | tag hf h => exact .tag hf h.symm
  | held hf hm _ ih => exact .held hf hm ih

/-- Values that differ are unequal. -/
theorem Differ.not_same (h : Γ.Differ s a b) (ha : Γ.Comparable s a) : ¬ Γ.Same s a b := by
  intro hab
  induction h with
  | scalar h => cases hab with | scalar hab => simp [h] at hab
  | converted h _ => cases hab with | converted hab => simp [h] at hab
  | delegate _ ih => cases hab with | delegate hab => exact ih (ha.part .delegate) hab
  | staged _ ih => cases hab with | staged hab => exact ih (ha.part .staged) hab
  | appears | disappears => cases hab
  | present _ ih => cases hab with | present hab => exact ih (ha.part .present) hab
  | array hm _ ih =>
    cases hab with
    | array _ hab => exact ih (ha.part (.array (List.of_mem_zip hm).1)) (hab _ _ hm)
  | length h => cases hab with | seq hl _ => exact h hl
  | seq hm _ ih =>
    cases hab with
    | seq _ hab => exact ih (ha.part (.seq (List.of_mem_zip hm).1)) (hab _ _ hm)
  | key h =>
    cases hab with
    | map hl hk _ =>
      cases ha with
      | map hd _ =>
        rw [Entries.find?_isSome_iff, Entries.find?_isSome_iff] at h
        have hmem := (Entries.places_perm hd hl hk).mem_iff.symm.trans h
        tauto
  | value hx hy _ ih =>
    cases hab with
    | map _ _ hab =>
      obtain ⟨k, hc, hmem⟩ := Entries.exists_mem_of_find? hx
      rw [Entries.find?_congr hc] at hy
      exact ih (ha.part (.value hmem)) (hab _ hmem _ hy)
  | slot hf hm hc _ ih =>
    cases hab with
    | record hf' _ _ hab =>
      cases hf.symm.trans hf'
      exact ih (ha.part (.slot hf (List.of_mem_zip hm).1 hc)) (hab _ _ _ hm hc)
  | fills _ | empties _ => cases hab
  | tag _ h => cases hab with | held _ _ _ => exact h rfl
  | held hf hm _ ih =>
    cases hab with
    | held hf' hm' hab =>
      cases hf.symm.trans hf'
      cases hm.symm.trans hm'
      exact ih (ha.part (.held hf hm)) hab

/-- Lists that are not related item by item have a pair of items that are not. -/
theorem forall_or_exists_mem_zip {α β : Type} {p q : α → β → Prop} {as : List α} {bs : List β}
    (h : ∀ a b, (a, b) ∈ as.zip bs → p a b ∨ q a b) :
    (∀ a b, (a, b) ∈ as.zip bs → p a b) ∨ ∃ a b, (a, b) ∈ as.zip bs ∧ q a b := by
  by_cases hall : ∀ a b, (a, b) ∈ as.zip bs → p a b
  · exact .inl hall
  · push Not at hall
    obtain ⟨a, b, hab, hn⟩ := hall
    exact .inr ⟨a, b, hab, (h a b hab).resolve_left hn⟩

/-- Values that are not equal differ at a position that is compared. -/
theorem Comparable.same_or_differ (ha : Γ.Comparable s a) (hb : Γ.Comparable s b)
    (hs : Γ.Throughout Shape.lawful s) : Γ.Same s a b ∨ Γ.Differ s a b := by
  induction ha generalizing b with
  | @scalar s cast d _ =>
    cases hb with
    | @scalar _ _ e _ =>
      cases h : s.same d e with
      | true => exact .inl (.scalar h)
      | false => exact .inr (.scalar h)
  | @converted c w d _ =>
    have hlaw : c.Lawful := hs.self
    cases hb with
    | @converted _ _ e _ =>
      cases h : c.same d e with
      | true => exact .inl (.converted h)
      | false => exact .inr (.converted h (hlaw.symm d e ▸ h))
  | delegate _ ih =>
    exact (ih (hb.part .delegate) (hs.child .delegate)).imp .delegate .delegate
  | staged _ ih => exact (ih (hb.part .staged) (hs.child .staged)).imp .staged .staged
  | absent =>
    cases hb with
    | absent => exact .inl .absent
    | present _ => exact .inr .appears
  | present _ ih =>
    cases hb with
    | absent => exact .inr .disappears
    | present hb => exact (ih hb (hs.child .option)).imp .present .present
  | array hl _ ih =>
    cases hb with
    | array hl' hbs =>
      have hpairs := forall_or_exists_mem_zip fun x y hxy =>
        ih x (List.of_mem_zip hxy).1 (hbs y (List.of_mem_zip hxy).2) (hs.child .array)
      rcases hpairs with hall | ⟨x, y, hxy, hdiff⟩
      · exact .inl (.array (hl.trans hl'.symm) hall)
      · exact .inr (.array hxy hdiff)
  | @seq s as _ ih =>
    cases hb with
    | @seq _ bs hbs =>
      by_cases hl : as.length = bs.length
      · have hpairs := forall_or_exists_mem_zip fun x y hxy =>
          ih x (List.of_mem_zip hxy).1 (hbs y (List.of_mem_zip hxy).2) (hs.child .seq)
        rcases hpairs with hall | ⟨x, y, hxy, hdiff⟩
        · exact .inl (.seq hl hall)
        · exact .inr (.seq hxy hdiff)
      · exact .inr (.length hl)
  | @map keys key value es hd _ ih =>
    cases hb with
    | @map _ _ _ fs hd' hfs =>
      by_cases hkeys : ∀ k, (Entries.find? keys.compare k es).isSome ↔
          (Entries.find? keys.compare k fs).isSome
      · -- keys that are apart and found in both maps make maps of one size
        have hl : es.length = fs.length := Entries.length_eq_of_isSome_iff hd hd' hkeys
        by_cases hall : ∀ e ∈ es, ∀ y, Entries.find? keys.compare e.1 fs = some y →
            Γ.Same value e.2 y
        · refine .inl (.map hl (fun e he => (hkeys e.1).1 ?_) hall)
          exact Entries.find?_isSome_iff.2 (Entries.mem_places he)
        · push Not at hall
          obtain ⟨e, he, y, hy, hn⟩ := hall
          obtain ⟨k, -, hmem⟩ := Entries.exists_mem_of_find? hy
          have hdiff := (ih e he (hfs _ hmem) (hs.child .value)).resolve_left hn
          exact .inr (.value (Entries.find?_of_mem hd he) hy hdiff)
      · push Not at hkeys
        obtain ⟨k, hk⟩ := hkeys
        exact .inr (.key (by tauto))
  | @record name slots as hf hl _ ih =>
    cases hb with
    | @record _ _ bs hf' hl' hbs =>
      cases hf.symm.trans hf'
      by_cases hall : ∀ slot x y, ((slot, x), y) ∈ (slots.zip as).zip bs →
          slot.uncompared = false → Γ.Same slot.shape x y
      · exact .inl (.record hf hl.le hl'.le hall)
      · push Not at hall
        obtain ⟨slot, x, y, hxy, hc, hn⟩ := hall
        obtain ⟨hx, -⟩ := List.of_mem_zip hxy
        obtain ⟨hy, -⟩ := List.of_mem_zip (mem_zip_zip_comm.1 hxy)
        have hdiff := (ih (slot, x) hx hc (hbs (slot, y) hy hc)
          (hs.slot hf (List.of_mem_zip hx).1)).resolve_left hn
        exact .inr (.slot hf hxy hc hdiff)
    | empty hf' | held hf' _ _ => cases hf.symm.trans hf'
  | empty hf =>
    cases hb with
    | record hf' _ _ => cases hf.symm.trans hf'
    | empty _ => exact .inl (.empty hf)
    | held _ _ _ => exact .inr (.fills hf)
  | @held name u tag m x hf hm _ ih =>
    cases hb with
    | record hf' _ _ => cases hf.symm.trans hf'
    | empty _ => exact .inr (.empties hf)
    | @held _ _ tag' m' y hf' hm' hb =>
      by_cases ht : tag = tag'
      · subst ht
        cases hf.symm.trans hf'
        cases hm.symm.trans hm'
        exact (ih hb (hs.member hf hm)).imp (.held hf hm) (.held hf hm)
      · exact .inr (.tag hf ht)

/-! ### What is seen -/

/-- Values that are alike in the view of the comparison are equal to the same values. -/
theorem AlikeIn.equals_eq (h : Γ.AlikeIn .comparison s a b) (ha : Γ.Comparable s a)
    (hb : Γ.Comparable s b) (style : Style) (c : Value) :
    Γ.equals style s a c = Γ.equals style s b c ∧ Γ.equals style s c a = Γ.equals style s c b := by
  constructor
  · rw [Bool.eq_iff_iff, equals_iff, equals_iff]
    exact ⟨h.same_left hb, h.symm.same_left ha⟩
  · rw [Bool.eq_iff_iff, equals_iff, equals_iff]
    exact ⟨h.same_right, h.symm.same_right⟩

theorem Differ.equals_eq_false (h : Γ.Differ s a b) (ha : Γ.Comparable s a) (style : Style) :
    Γ.equals style s a b = false := by
  rw [← Bool.not_eq_true, equals_iff]
  exact h.not_same ha

/-- **The marks of slots decide what is seen.**  What differs only in slots off the wire has the
same bytes, what differs only in slots that are not compared is equal to the same values, and a
difference anywhere else makes values unequal, both ways.  If the equality of converted types is a
partial equivalence, nothing else makes them so. -/
theorem seen_exactly (Γ : Schema) (s : Shape) :
    (∀ a b, Γ.Fits s a → Γ.Fits s b → Γ.AlikeIn .bytes s a b →
      ∀ style, Γ.encode style s a = Γ.encode style s b) ∧
    (∀ a b, Γ.Comparable s a → Γ.Comparable s b → Γ.AlikeIn .comparison s a b →
      ∀ style c, Γ.equals style s a c = Γ.equals style s b c ∧
        Γ.equals style s c a = Γ.equals style s c b) ∧
    (∀ a b, Γ.Comparable s a → Γ.Comparable s b → Γ.Differ s a b →
      ∀ style, Γ.equals style s a b = false ∧ Γ.equals style s b a = false) ∧
    (Γ.Throughout Shape.lawful s → ∀ a b, Γ.Comparable s a → Γ.Comparable s b →
      ∀ style, Γ.equals style s a b = false → Γ.Differ s a b) := by
  refine ⟨fun a b ha hb h style => h.encode_eq ha hb style,
    fun a b ha hb h style c => h.equals_eq ha hb style c, fun a b ha hb h style => ?_,
    fun hs a b ha hb style h => ?_⟩
  · exact ⟨h.equals_eq_false ha style, h.symm.equals_eq_false hb style⟩
  · refine (ha.same_or_differ hb hs).resolve_left fun hab => ?_
    rw [equals_iff.2 hab] at h
    cases h

/-- Teams of profiles by name.  A profile has a cache off the wire and a counter that is not
compared. -/
def teams : Schema :=
  { decls := [("Profile", .record [
      ⟨.name "motto", .scalar .text none, false, false⟩,
      ⟨.name "cache", .scalar (.int ⟨false, .w32⟩) none, true, false⟩,
      ⟨.name "visits", .scalar (.int ⟨false, .w32⟩) none, false, true⟩]),
    ("Team", .record [
      ⟨.name "members", .map .hashed (.scalar .text none) (.ref "Profile"), false, false⟩])] }

/-- A profile. -/
def profile (motto : String) (cache visits : Int) : Value :=
  .record [.datum (.text motto), .datum (.int cache), .datum (.int visits)]

/-- A team of one. -/
def team (member : Value) : Value := .record [.entries [(.datum (.text "ann"), member)]]

theorem fits_team {member : Value} (h : teams.Fits (.ref "Profile") member) :
    teams.Fits (.ref "Team") (team member) := by
  refine .record rfl rfl ?_
  simp only [List.zip_cons_cons, List.zip_nil_right, List.forall_mem_cons]
  refine ⟨fun _ => .map (Nat.one_lt_two_pow (by decide)) (List.pairwise_singleton _ _) ?_ ?_,
    List.forall_mem_nil _⟩
  · simp only [List.forall_mem_cons]
    exact ⟨.scalar (by decide : (3 : Nat) < _), List.forall_mem_nil _⟩
  · simp only [List.forall_mem_cons]
    exact ⟨h, List.forall_mem_nil _⟩

theorem comparable_team {member : Value} (h : teams.Comparable (.ref "Profile") member) :
    teams.Comparable (.ref "Team") (team member) := by
  refine .record rfl rfl ?_
  simp only [List.zip_cons_cons, List.zip_nil_right, List.forall_mem_cons]
  refine ⟨fun _ => .map (List.pairwise_singleton _ _) ?_, List.forall_mem_nil _⟩
  simp only [List.forall_mem_cons]
  exact ⟨h, List.forall_mem_nil _⟩

theorem fits_profile {motto : String} {cache visits : Int} (hm : motto.utf8ByteSize < 2 ^ 64)
    (hv : IntType.InRange ⟨false, .w32⟩ visits) :
    teams.Fits (.ref "Profile") (profile motto cache visits) := by
  refine .record rfl rfl ?_
  simp only [List.zip_cons_cons, List.zip_nil_right, List.forall_mem_cons]
  exact ⟨fun _ => .scalar hm, fun ho => Bool.noConfusion ho, fun _ => .scalar hv,
    List.forall_mem_nil _⟩

theorem comparable_profile {motto : String} {cache visits : Int}
    (hm : motto.utf8ByteSize < 2 ^ 64) (hc : IntType.InRange ⟨false, .w32⟩ cache) :
    teams.Comparable (.ref "Profile") (profile motto cache visits) := by
  refine .record rfl rfl ?_
  simp only [List.zip_cons_cons, List.zip_nil_right, List.forall_mem_cons]
  exact ⟨fun _ => .scalar hm, fun _ => .scalar hc, fun ho => Bool.noConfusion ho,
    List.forall_mem_nil _⟩

theorem alikeIn_team {p q : Value}
    (hk : view.keys Value.compare [(.datum (.text "ann"), p)] [(.datum (.text "ann"), q)])
    (h : teams.AlikeIn view (.ref "Profile") p q) :
    teams.AlikeIn view (.ref "Team") (team p) (team q) := by
  refine .record rfl rfl fun slot x y hxy _ => ?_
  simp only [List.zip_cons_cons, List.zip_nil_right, List.mem_cons, List.not_mem_nil,
    or_false, Prod.mk.injEq] at hxy
  obtain ⟨⟨rfl, rfl⟩, rfl⟩ := hxy
  refine .map hk fun k x y hx hy => ?_
  obtain ⟨_, -, hx'⟩ := Entries.exists_mem_of_find? hx
  obtain ⟨_, -, hy'⟩ := Entries.exists_mem_of_find? hy
  simp only [List.mem_cons, List.not_mem_nil, or_false, Prod.mk.injEq] at hx' hy'
  rw [hx'.2, hy'.2]
  exact h

theorem alikeIn_profile {motto : String} {cache cache' visits visits' : Int}
    (hc : cache = cache' ∨
      ¬ view.sees ⟨.name "cache", .scalar (.int ⟨false, .w32⟩) none, true, false⟩)
    (hv : visits = visits' ∨
      ¬ view.sees ⟨.name "visits", .scalar (.int ⟨false, .w32⟩) none, false, true⟩) :
    teams.AlikeIn view (.ref "Profile") (profile motto cache visits)
      (profile motto cache' visits') := by
  refine .record rfl rfl fun slot x y hxy hsees => ?_
  simp only [List.zip_cons_cons, List.zip_nil_right, List.mem_cons, List.not_mem_nil,
    or_false, Prod.mk.injEq] at hxy
  rcases hxy with ⟨⟨rfl, rfl⟩, rfl⟩ | ⟨⟨rfl, rfl⟩, rfl⟩ | ⟨⟨rfl, rfl⟩, rfl⟩
  · exact .refl
  · rw [hc.resolve_right fun hn => hn hsees]
    exact .refl
  · rw [hv.resolve_right fun hn => hn hsees]
    exact .refl

theorem lawful_teams : teams.Throughout Shape.lawful (.ref "Team") := by
  refine throughout_of_every ?_ trivial
  simp only [Every, teams, List.forall_mem_cons, Decl.Every]
  exact ⟨⟨trivial, trivial, trivial, List.forall_mem_nil _⟩,
    ⟨⟨trivial, trivial, trivial⟩, List.forall_mem_nil _⟩, List.forall_mem_nil _⟩

/-- The cache of a profile leaves no trace in the bytes of its team but makes the team another one.
The counter of visits is not compared, and the motto is. -/
theorem seen_exactly_teams :
    let plain := team (profile "rest" 1 5)
    let cached := team (profile "rest" 2 5)
    let visited := team (profile "rest" 1 6)
    let changed := team (profile "work" 1 5)
    teams.encode .expanded (.ref "Team") plain = teams.encode .expanded (.ref "Team") cached ∧
    teams.Differ (.ref "Team") plain cached ∧
    (∀ c, teams.equals .expanded (.ref "Team") plain c =
        teams.equals .expanded (.ref "Team") visited c ∧
      teams.equals .expanded (.ref "Team") c plain =
        teams.equals .expanded (.ref "Team") c visited) ∧
    teams.equals .expanded (.ref "Team") plain changed = false ∧
    teams.equals .expanded (.ref "Team") changed plain = false := by
  intro plain cached visited changed
  obtain ⟨hbytes, halike, hdiffer, hunequal⟩ := seen_exactly teams (.ref "Team")
  have hplain : teams.Comparable (.ref "Team") plain :=
    comparable_team (comparable_profile (by decide) (by decide))
  have hcached : teams.Comparable (.ref "Team") cached :=
    comparable_team (comparable_profile (by decide) (by decide))
  have hvisited : teams.Comparable (.ref "Team") visited :=
    comparable_team (comparable_profile (by decide) (by decide))
  have hchanged : teams.Comparable (.ref "Team") changed :=
    comparable_team (comparable_profile (by decide) (by decide))
  have hmotto : teams.Differ (.ref "Team") plain changed := by
    have hann (p : Value) : Entries.find? Keys.hashed.compare (.datum (.text "ann"))
        [(.datum (.text "ann"), p)] = some p :=
      Entries.find?_of_mem (List.pairwise_singleton _ _) List.mem_cons_self
    refine .slot rfl List.mem_cons_self rfl (.value (hann _) (hann _) ?_)
    exact .slot rfl List.mem_cons_self rfl (.scalar (by decide))
  refine ⟨hbytes _ _ ?_ ?_ ?_ .expanded, ?_, halike _ _ hplain hvisited ?_ .expanded,
    hdiffer _ _ hplain hchanged hmotto .expanded⟩
  · exact fits_team (fits_profile (by decide) (by decide))
  · exact fits_team (fits_profile (by decide) (by decide))
  · exact alikeIn_team rfl (alikeIn_profile (.inr Bool.noConfusion) (.inl rfl))
  · exact hunequal lawful_teams _ _ hplain hcached .expanded (by decide +kernel)
  · exact alikeIn_team (.refl _) (alikeIn_profile (.inl rfl) (.inr Bool.noConfusion))

end Schema

end Marshal
