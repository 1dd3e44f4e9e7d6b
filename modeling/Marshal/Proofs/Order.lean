import Marshal.KeyOrder
import Mathlib.Data.List.Perm.Subperm
import Mathlib.Data.List.Sort

/-!
# Maps in order

A map is determined by its entries alone: however they are put in, as long as no two keys count as
the same, `Entries.ofList` holds them in the order of their keys (`Entries.ofList_eq_inOrder`).

`Value.sorted` brings the entries of all maps in a value into one and the same order, that of
`Value.compare`.  So two values are the same up to the order in which their maps visit the entries
if they are the same when sorted.
-/

namespace Marshal

namespace Entries

section

variable (cmp : Value → Value → Ordering)

/-- The key of the first entry is not after that of the second. -/
abbrev Precedes (e f : Value × Value) : Prop := (cmp e.1 f.1).isLE

/-- The key of the first entry is before that of the second. -/
abbrev Before (e f : Value × Value) : Prop := cmp e.1 f.1 = .lt

/-- The keys of two entries do not count as the same. -/
abbrev Apart (e f : Value × Value) : Prop := cmp e.1 f.1 ≠ .eq

/-- The entries in the order of their keys. -/
def inOrder (es : Entries) : Entries := es.insertionSort (Precedes cmp)

end

variable {cmp : Value → Value → Ordering}

theorem perm_inOrder (es : Entries) : (inOrder cmp es).Perm es :=
  List.perm_insertionSort (Precedes cmp) es

/-- Entries whose keys are apart are in strict order once they are in order. -/
theorem pairwise_before {es : Entries} (h : es.Pairwise (Apart cmp))
    (ho : es.Pairwise (Precedes cmp)) : es.Pairwise (Before cmp) :=
  (h.and ho).imp fun ⟨hne, hle⟩ =>
    (Ordering.isLE_iff_eq_lt_or_eq_eq.1 hle).resolve_right hne

theorem pairwise_apart {es : Entries} (h : es.Pairwise (Before cmp)) : es.Pairwise (Apart cmp) :=
  h.imp fun hef => by rw [Apart, hef]; simp

variable [Std.TransCmp cmp]

instance : IsTrans (Value × Value) (Precedes cmp) := ⟨fun _ _ _ => Std.TransCmp.isLE_trans⟩

instance : Std.Total (Precedes cmp) where
  total e f := by
    rcases h : cmp e.1 f.1 with _ | _ | _
    · exact .inl (by rw [Precedes, h]; rfl)
    · exact .inl (by rw [Precedes, h]; rfl)
    · exact .inr (by rw [Precedes, Std.OrientedCmp.lt_of_gt h]; rfl)

theorem Apart.symm {e f : Value × Value} (h : Apart cmp e f) : Apart cmp f e :=
  fun hfe => h (Std.OrientedCmp.eq_symm hfe)

theorem pairwise_inOrder {es : Entries} (h : es.Pairwise (Apart cmp)) :
    (inOrder cmp es).Pairwise (Before cmp) :=
  pairwise_before ((perm_inOrder es).symm.pairwise h Apart.symm)
    (List.pairwise_insertionSort (Precedes cmp) es)

/-- The order of the keys is the only order in which the same entries are in order. -/
theorem eq_of_perm {es fs : Entries} (hes : es.Pairwise (Before cmp))
    (hfs : fs.Pairwise (Before cmp)) (h : es.Perm fs) : es = fs := by
  refine h.eq_of_pairwise (fun e f _ _ hef hfe => ?_) hes hfs
  rw [Before, Std.OrientedCmp.gt_of_lt hef] at hfe
  cases hfe

theorem nodup_of_before {m : Entries} (h : m.Pairwise (Before cmp)) : m.Nodup := by
  refine (pairwise_apart h).imp fun hef heq => hef ?_
  exact heq ▸ Std.ReflCmp.compare_self

/-- A map in order is determined by its entries. -/
theorem eq_of_mem_iff {m m' : Entries} (h : m.Pairwise (Before cmp)) (h' : m'.Pairwise (Before cmp))
    (hmem : ∀ e, e ∈ m ↔ e ∈ m') : m = m' :=
  eq_of_perm h h' ((List.perm_ext_iff_of_nodup (nodup_of_before h) (nodup_of_before h')).2 hmem)

theorem inOrder_eq_of_perm {es fs : Entries} (h : es.Perm fs) (hes : es.Pairwise (Apart cmp)) :
    inOrder cmp es = inOrder cmp fs :=
  eq_of_perm (pairwise_inOrder hes) (pairwise_inOrder (h.pairwise hes Apart.symm))
    ((perm_inOrder es).trans (h.trans (perm_inOrder fs).symm))

/-! ### Filling a map -/

/-- The key of an entry of a map into which a key was put counts as that key, or the entry was there
before. -/
theorem key_of_mem_insert {k v : Value} {m : Entries} {e : Value × Value}
    (h : e ∈ insert cmp k v m) : cmp k e.1 = .eq ∨ e ∈ m := by
  induction m with
  | nil =>
    obtain rfl := List.mem_singleton.1 h
    exact .inl Std.ReflCmp.compare_self
  | cons f m ih =>
    obtain ⟨l, w⟩ := f
    rw [insert] at h
    split at h
    · rcases List.mem_cons.1 h with rfl | h
      · exact .inl Std.ReflCmp.compare_self
      · exact .inr h
    · rename_i hc
      rcases List.mem_cons.1 h with rfl | h
      · exact .inl hc
      · exact .inr (List.mem_cons_of_mem _ h)
    · rcases List.mem_cons.1 h with rfl | h
      · exact .inr List.mem_cons_self
      · exact (ih h).imp_right (List.mem_cons_of_mem _)

theorem pairwise_insert {k v : Value} {m : Entries} (h : m.Pairwise (Before cmp)) :
    (insert cmp k v m).Pairwise (Before cmp) := by
  induction m with
  | nil => simp [insert]
  | cons f m ih =>
    obtain ⟨l, w⟩ := f
    obtain ⟨hl, hm⟩ := List.pairwise_cons.1 h
    rw [insert]
    split
    · rename_i hc
      refine List.pairwise_cons.2 ⟨fun e he => ?_, h⟩
      rcases List.mem_cons.1 he with rfl | he
      · exact hc
      · exact Std.TransCmp.lt_trans hc (hl e he)
    · exact List.pairwise_cons.2 ⟨fun e he => hl e he, hm⟩
    · rename_i hc
      refine List.pairwise_cons.2 ⟨fun e he => ?_, ih hm⟩
      rcases key_of_mem_insert he with hk | he
      · rw [Before, ← Std.TransCmp.congr_right hk]
        exact Std.OrientedCmp.lt_of_gt hc
      · exact hl e he

omit [Std.TransCmp cmp] in
/-- An entry with a new key is added to the others. -/
theorem perm_insert {k v : Value} {m : Entries} (h : ∀ e ∈ m, cmp k e.1 ≠ .eq) :
    (insert cmp k v m).Perm ((k, v) :: m) := by
  induction m with
  | nil => rfl
  | cons f m ih =>
    obtain ⟨l, w⟩ := f
    rw [insert]
    split
    · rfl
    · rename_i hc
      exact absurd hc (h (l, w) List.mem_cons_self)
    · exact ((ih fun e he => h e (List.mem_cons_of_mem _ he)).cons _).trans (.swap _ _ _)

/-- Entries that are put into a map whose keys are in order leave them in order. -/
theorem pairwise_foldl_insert {es m : Entries} (h : m.Pairwise (Before cmp)) :
    (es.foldl (fun m (k, v) => insert cmp k v m) m).Pairwise (Before cmp) := by
  induction es generalizing m with
  | nil => exact h
  | cons e es ih => exact ih (pairwise_insert h)

theorem pairwise_ofList (es : Entries) : (ofList es cmp).Pairwise (Before cmp) :=
  pairwise_foldl_insert List.Pairwise.nil

/-- Entries with new keys that are apart are all added. -/
theorem perm_foldl_insert {es m : Entries} (h : (es ++ m).Pairwise (Apart cmp)) :
    (es.foldl (fun m (k, v) => insert cmp k v m) m).Perm (es ++ m) := by
  induction es generalizing m with
  | nil => rfl
  | cons e es ih =>
    obtain ⟨k, v⟩ := e
    have hp : (insert cmp k v m).Perm ((k, v) :: m) :=
      perm_insert fun f hf => (List.pairwise_cons.1 h).1 f (List.mem_append_right es hf)
    have hes : (es ++ insert cmp k v m).Perm ((k, v) :: es ++ m) :=
      (hp.append_left es).trans List.perm_middle
    exact (ih (hes.symm.pairwise h Apart.symm)).trans hes

/-- A map that was built from entries whose keys are apart holds them in the order of their keys,
whatever the order they were put in. -/
theorem ofList_eq_inOrder {es : Entries} (h : es.Pairwise (Apart cmp)) :
    ofList es cmp = inOrder cmp es := by
  have hp : (ofList es cmp).Perm es := by
    simpa [ofList] using perm_foldl_insert (m := []) (by simpa using h)
  exact eq_of_perm (pairwise_ofList es) (pairwise_inOrder h) (hp.trans (perm_inOrder es).symm)

/-! ### Looking up keys -/

variable {k l v : Value} {es fs : Entries}

/-- The keys of a map, each as its place in the order.  Keys count as the same if they have the same
place. -/
abbrev places (cmp : Value → Value → Ordering) (es : Entries) : List (Value → Ordering) :=
  es.map fun e => cmp e.1

theorem place_eq_iff : cmp k = cmp l ↔ cmp k l = .eq := by
  refine ⟨fun h => ?_, fun h => funext fun _ => Std.TransCmp.congr_left h⟩
  rw [h]
  exact Std.ReflCmp.compare_self

theorem nodup_places_iff : (places cmp es).Nodup ↔ es.Pairwise (Apart cmp) := by
  rw [List.Nodup, List.pairwise_map]
  exact List.Pairwise.iff fun _ _ => not_congr place_eq_iff

theorem find?_congr (h : cmp k l = .eq) : find? cmp k es = find? cmp l es := by
  induction es with
  | nil => rfl
  | cons e es ih => rw [find?, find?, ih, place_eq_iff.2 h]

omit [Std.TransCmp cmp] in
theorem exists_mem_of_find? (h : find? cmp k es = some v) :
    ∃ l, cmp k l = .eq ∧ (l, v) ∈ es := by
  induction es with
  | nil => cases h
  | cons e es ih =>
    obtain ⟨l, w⟩ := e
    rw [find?] at h
    split_ifs at h with hc
    · cases h
      exact ⟨l, hc, List.mem_cons_self⟩
    · obtain ⟨l', hc', hmem⟩ := ih h
      exact ⟨l', hc', List.mem_cons_of_mem _ hmem⟩

/-- A map whose keys are apart finds each of its entries. -/
theorem find?_of_mem (hd : es.Pairwise (Apart cmp)) (h : (k, v) ∈ es) :
    find? cmp k es = some v := by
  induction es with
  | nil => cases h
  | cons e es ih =>
    obtain ⟨l, w⟩ := e
    obtain ⟨hl, hd⟩ := List.pairwise_cons.1 hd
    rw [find?]
    rcases List.mem_cons.1 h with heq | hmem
    · cases heq
      rw [if_pos Std.ReflCmp.compare_self]
    · rw [if_neg (Apart.symm (hl _ hmem))]
      exact ih hd hmem

theorem find?_isSome_iff : (find? cmp k es).isSome ↔ cmp k ∈ places cmp es := by
  induction es with
  | nil => simp [find?]
  | cons e es ih =>
    obtain ⟨l, w⟩ := e
    rw [find?, places, List.map_cons, List.mem_cons, place_eq_iff]
    by_cases hc : cmp k l = .eq
    · simp [hc]
    · simpa [hc] using ih

theorem exists_of_mem_places (h : cmp k ∈ places cmp es) : ∃ v, find? cmp k es = some v :=
  Option.isSome_iff_exists.1 (find?_isSome_iff.2 h)

omit [Std.TransCmp cmp] in
theorem mem_places (h : (k, v) ∈ es) : cmp k ∈ places cmp es := List.mem_map.2 ⟨_, h, rfl⟩

/-- If a map finds all the keys of another map of its size, and these are apart, the two have the
same keys. -/
theorem places_perm (hd : es.Pairwise (Apart cmp)) (hl : es.length = fs.length)
    (h : ∀ e ∈ es, (find? cmp e.1 fs).isSome) : (places cmp es).Perm (places cmp fs) := by
  have hsub : places cmp es ⊆ places cmp fs := by
    intro x hx
    obtain ⟨e, he, rfl⟩ := List.mem_map.1 hx
    exact find?_isSome_iff.1 (h e he)
  exact ((nodup_places_iff.2 hd).subperm hsub).perm_of_length_le (by simp [hl])

/-- Two maps have one size if each finds the keys that the other finds. -/
theorem length_eq_of_isSome_iff (hd : es.Pairwise (Apart cmp)) (hd' : fs.Pairwise (Apart cmp))
    (h : ∀ k, (find? cmp k es).isSome ↔ (find? cmp k fs).isSome) : es.length = fs.length := by
  have hmem (x : Value → Ordering) : x ∈ places cmp es ↔ x ∈ places cmp fs := by
    constructor
    · intro hx
      obtain ⟨e, -, rfl⟩ := List.mem_map.1 hx
      exact find?_isSome_iff.1 ((h e.1).1 (find?_isSome_iff.2 hx))
    · intro hx
      obtain ⟨f, -, rfl⟩ := List.mem_map.1 hx
      exact find?_isSome_iff.1 ((h f.1).2 (find?_isSome_iff.2 hx))
  have hperm := (List.perm_ext_iff_of_nodup (nodup_places_iff.2 hd) (nodup_places_iff.2 hd')).2 hmem
  simpa using hperm.length_eq

end Entries

/-! ### Values with their maps in order -/

namespace Value

mutual

/-- The value with the entries of all its maps in the order of `Value.compare`. -/
def sorted : Value → Value
  | datum d => datum d
  | absent => absent
  | present v => present v.sorted
  | items vs => items (sortedAll vs)
  | entries es => entries (Entries.inOrder compare (sortedEntries es))
  | record vs => record (sortedAll vs)
  | member tag v => member tag v.sorted

/-- The values of a list, each with its maps in order. -/
def sortedAll : List Value → List Value
  | [] => []
  | v :: vs => v.sorted :: sortedAll vs

/-- The entries of a list, each with the maps of its key and its value in order. -/
def sortedEntries : List (Value × Value) → Entries
  | [] => []
  | (k, v) :: es => (k.sorted, v.sorted) :: sortedEntries es

end

theorem sortedAll_eq_map (vs : List Value) : sortedAll vs = vs.map sorted := by
  induction vs with
  | nil => rfl
  | cons v vs ih => rw [sortedAll, ih, List.map_cons]

theorem sortedEntries_eq_map (es : Entries) :
    sortedEntries es = es.map (Prod.map sorted sorted) := by
  induction es with
  | nil => rfl
  | cons e es ih => rw [sortedEntries, ih, List.map_cons]; rfl

@[simp] theorem sorted_items (vs : List Value) : (items vs).sorted = items (vs.map sorted) := by
  rw [sorted, sortedAll_eq_map]

@[simp] theorem sorted_record (vs : List Value) :
    (record vs).sorted = record (vs.map sorted) := by
  rw [sorted, sortedAll_eq_map]

@[simp] theorem sorted_entries (es : Entries) :
    (entries es).sorted = entries (Entries.inOrder compare (es.map (Prod.map sorted sorted))) := by
  rw [sorted, sortedEntries_eq_map]

end Value

namespace Entries

/-- The keys of two entries do not count as the same, whatever the order in which the maps within
them visit their entries. -/
def Separate (cmp : Value → Value → Ordering) (e f : Value × Value) : Prop :=
  ∀ k l : Value, k.sorted = e.1.sorted → l.sorted = f.1.sorted → cmp k l ≠ .eq

variable {cmp : Value → Value → Ordering} {e f : Value × Value}

theorem Separate.apart (h : Separate cmp e f) : Apart cmp e f := h _ _ rfl rfl

theorem Separate.sorted_ne [Std.ReflCmp cmp] (h : Separate cmp e f) : e.1.sorted ≠ f.1.sorted :=
  fun hef => h _ _ rfl hef Std.ReflCmp.compare_self

theorem pairwise_apart_sorted [Std.ReflCmp cmp] {es : Entries} (h : es.Pairwise (Separate cmp)) :
    (es.map (Prod.map Value.sorted Value.sorted)).Pairwise (Apart Value.compare) := by
  refine List.pairwise_map.2 (h.imp fun hef hc => hef.sorted_ne ?_)
  exact Value.compare_eq_iff.1 hc

/-- Entries are separate by their sorted keys. -/
theorem pairwise_separate_congr {es fs : Entries}
    (h : (fs.map fun f => f.1.sorted) = es.map fun e => e.1.sorted)
    (hes : es.Pairwise (Separate cmp)) : fs.Pairwise (Separate cmp) := by
  have hmap {ds : Entries} : ds.Pairwise (Separate cmp) ↔
      (ds.map fun d => d.1.sorted).Pairwise fun x y =>
        ∀ k l : Value, k.sorted = x → l.sorted = y → cmp k l ≠ .eq := by
    rw [List.pairwise_map]
    rfl
  rw [hmap] at hes ⊢
  exact h ▸ hes

/-- Where all of a key is compared, keys are separate if they are different when sorted. -/
theorem separate_compare_iff : Separate Value.compare e f ↔ e.1.sorted ≠ f.1.sorted := by
  refine ⟨Separate.sorted_ne, fun hne k l hk hl hkl => hne ?_⟩
  rw [← hk, ← hl, Value.compare_eq_iff.1 hkl]

theorem pairwise_separate_compare_iff {es : Entries} :
    es.Pairwise (Separate Value.compare) ↔ (es.map fun e => e.1.sorted).Nodup := by
  rw [List.Nodup, List.pairwise_map]
  exact ⟨fun h => h.imp separate_compare_iff.1, fun h => h.imp separate_compare_iff.2⟩

end Entries

end Marshal
