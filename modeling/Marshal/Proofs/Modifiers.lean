import Mathlib.Data.List.TakeWhile
import Mathlib.Data.Set.List
import Marshal.Proofs.Annotations

/-!
# What the attributes of a field ask for

Attributes that are read hold settings, each a key with a string (`Attribute.settings`).
`Settings.Legible` says which settings are accepted, and `Settings.Ask` what they ask for; neither
depends on the order of the settings or on the attributes that they stand in.

Going through the settings from left to right keeps both in step: the settings up to some point are
legible, and the modifiers up to there are what they ask for (`Modifiers.step_asks`).  So
`Modifiers.read` computes what all of them ask for, and any other arrangement of the same settings
is read alike (`Modifiers.read_unordered`).

The names in a list of skipped capabilities are told by where they stand in the text
(`Text.Listed`), and not by how the text is cut up.
-/

namespace Marshal

/-! ### Lists in texts -/

namespace Text

/-- The text `c` is an entry of the list `s`: from one comma or end of the text to the next there is
nothing but `c` and white space around it. -/
structure Listed (s c : String) : Prop where
  stands : ∃ before left right after, s.toList = before ++ (left ++ c.toList ++ right) ++ after ∧
    (∀ x ∈ before.getLast?, x = ',') ∧ (∀ x ∈ after.head?, x = ',') ∧
    ',' ∉ left ++ c.toList ++ right ∧ (∀ x ∈ left, isBlank x) ∧ ∀ x ∈ right, isBlank x
  nonempty : c ≠ ""
  head : ∀ x ∈ c.toList.head?, isBlank x = false
  last : ∀ x ∈ c.toList.getLast?, isBlank x = false

theorem splitAt_ne_nil (separator : Char) (cs : List Char) : splitAt separator cs ≠ [] := by
  cases cs with
  | nil => simp [splitAt]
  | cons c cs =>
    unfold splitAt
    split_ifs
    · simp
    · split <;> simp

theorem splitAt_of_notMem {separator : Char} {cs : List Char} (h : separator ∉ cs) :
    splitAt separator cs = [cs] := by
  induction cs with
  | nil => rfl
  | cons c cs ih =>
    rw [List.mem_cons, not_or] at h
    rw [splitAt, if_neg (Ne.symm h.1), ih h.2]

theorem splitAt_append (separator : Char) (as bs : List Char) :
    splitAt separator (as ++ separator :: bs) = splitAt separator as ++ splitAt separator bs := by
  induction as with
  | nil => simp [splitAt]
  | cons a as ih =>
    rw [List.cons_append, splitAt, splitAt, ih]
    split_ifs
    · rfl
    · obtain ⟨piece, rest, hsplit⟩ := List.exists_cons_of_ne_nil (splitAt_ne_nil separator as)
      rw [hsplit]
      rfl

theorem between_of_mem_splitAt {separator : Char} {cs piece : List Char}
    (h : piece ∈ splitAt separator cs) : separator ∉ piece ∧ ∃ before after,
      cs = before ++ piece ++ after ∧ (∀ x ∈ before.getLast?, x = separator) ∧
        ∀ x ∈ after.head?, x = separator := by
  by_cases hmem : separator ∈ cs
  · -- a separator cuts the text in two, and the piece comes from one of the halves
    obtain ⟨as, bs, rfl⟩ := List.append_of_mem hmem
    rw [splitAt_append, List.mem_append] at h
    rcases h with h | h
    · obtain ⟨hpiece, before, after, rfl, hbefore, hafter⟩ := between_of_mem_splitAt h
      refine ⟨hpiece, before, after ++ separator :: bs, by simp, hbefore, ?_⟩
      cases after <;> simp_all
    · obtain ⟨hpiece, before, after, rfl, hbefore, hafter⟩ := between_of_mem_splitAt h
      refine ⟨hpiece, as ++ separator :: before, after, by simp, ?_, hafter⟩
      cases before <;> simp_all
  · rw [splitAt_of_notMem hmem, List.mem_singleton] at h
    subst h
    exact ⟨hmem, [], [], by simp, by simp, by simp⟩
termination_by cs.length
decreasing_by
  all_goals
    rw [‹cs = as ++ separator :: bs›, List.length_append, List.length_cons]
    omega

theorem mem_splitAt_of_between {separator : Char} {before piece after : List Char}
    (hpiece : separator ∉ piece) (hbefore : ∀ x ∈ before.getLast?, x = separator)
    (hafter : ∀ x ∈ after.head?, x = separator) :
    piece ∈ splitAt separator (before ++ piece ++ after) := by
  have hrest : piece ∈ splitAt separator (piece ++ after) := by
    cases after with
    | nil => simp [splitAt_of_notMem hpiece]
    | cons x after =>
      obtain rfl : x = separator := hafter x rfl
      simp [splitAt_append, splitAt_of_notMem hpiece]
  rcases List.eq_nil_or_concat before with rfl | ⟨before, x, rfl⟩
  · exact hrest
  · obtain rfl : x = separator := hbefore x (by simp)
    simp [splitAt_append, hrest]

theorem dropWhile_eq_iff {p : Char → Bool} {cs rest : List Char} :
    cs.dropWhile p = rest ↔
      (∀ x ∈ rest.head?, p x = false) ∧ ∃ left, (∀ x ∈ left, p x) ∧ cs = left ++ rest := by
  constructor
  · rintro rfl
    refine ⟨fun x hx => ?_, cs.takeWhile p, fun x hx => List.mem_takeWhile_imp hx,
      List.takeWhile_append_dropWhile.symm⟩
    have hhead := List.head?_dropWhile_not p cs
    rw [hx] at hhead
    exact hhead
  · rintro ⟨hrest, left, hleft, rfl⟩
    rw [List.dropWhile_append_of_pos hleft]
    cases rest with
    | nil => rfl
    | cons x rest => rw [List.dropWhile_cons_of_neg (by simp [hrest x rfl])]

theorem trim_eq_iff {cs core : List Char} (h : core ≠ []) :
    trim cs = core ↔ (∀ x ∈ core.head?, isBlank x = false) ∧
      (∀ x ∈ core.getLast?, isBlank x = false) ∧ ∃ left right, (∀ x ∈ left, isBlank x) ∧
        (∀ x ∈ right, isBlank x) ∧ cs = left ++ core ++ right := by
  have hhead (right : List Char) : (core ++ right).head? = core.head? := by
    rw [List.head?_append_of_ne_nil _ h]
  rw [trim, List.reverse_eq_iff, dropWhile_eq_iff, List.head?_reverse]
  constructor
  · rintro ⟨hlast, right, hright, hdrop⟩
    rw [List.reverse_eq_iff, List.reverse_append, List.reverse_reverse, dropWhile_eq_iff,
      hhead] at hdrop
    obtain ⟨hfirst, left, hleft, rfl⟩ := hdrop
    exact ⟨hfirst, hlast, left, right.reverse, hleft, by simpa using hright, by simp⟩
  · rintro ⟨hfirst, hlast, left, right, hleft, hright, rfl⟩
    refine ⟨hlast, right.reverse, by simpa using hright, ?_⟩
    rw [List.reverse_eq_iff, List.reverse_append, List.reverse_reverse, List.reverse_reverse,
      dropWhile_eq_iff, hhead]
    exact ⟨hfirst, left, hleft, by simp⟩

/-- The pieces of a text are the entries of the list that it is. -/
theorem mem_pieces_iff {s c : String} : c ∈ pieces s ↔ Listed s c := by
  have hpieces : c ∈ pieces s ↔ c ≠ "" ∧ ∃ piece ∈ splitAt ',' s.toList, trim piece = c.toList := by
    simp only [pieces, List.mem_map, List.mem_filter, ← String.toList_inj, String.toList_ofList]
    constructor
    · rintro ⟨cs, ⟨⟨piece, hpiece, rfl⟩, hcs⟩, hc⟩
      rw [hc] at hcs
      exact ⟨by simpa using hcs, piece, hpiece, hc⟩
    · rintro ⟨hc, piece, hpiece, htrim⟩
      exact ⟨_, ⟨⟨piece, hpiece, rfl⟩, by simpa [htrim] using hc⟩, htrim⟩
  rw [hpieces]
  constructor
  · rintro ⟨hc, piece, hpiece, htrim⟩
    obtain ⟨hfirst, hlast, left, right, hleft, hright, rfl⟩ := (trim_eq_iff (by simpa)).1 htrim
    obtain ⟨hcomma, before, after, hs, hbefore, hafter⟩ := between_of_mem_splitAt hpiece
    exact ⟨⟨before, left, right, after, hs, hbefore, hafter, hcomma, hleft, hright⟩, hc, hfirst,
      hlast⟩
  · rintro ⟨⟨before, left, right, after, hs, hbefore, hafter, hcomma, hleft, hright⟩, hc, hfirst,
      hlast⟩
    refine ⟨hc, left ++ c.toList ++ right, ?_,
      (trim_eq_iff (by simpa)).2 ⟨hfirst, hlast, left, right, hleft, hright, rfl⟩⟩
    rw [hs]
    exact mem_splitAt_of_between hcomma hbefore hafter

end Text

/-! ### Settings -/

/-- Keys with their strings, from left to right. -/
abbrev Settings := List (String × String)

/-- The entry that is a setting. -/
def AttrEntry.ofSetting (x : String × String) : AttrEntry := .keyed x.1 (.string x.2)

/-- The setting that an entry is. -/
def AttrEntry.setting? : AttrEntry → Option (String × String)
  | keyed key (.string s) => some (key, s)
  | _ => none

namespace Attribute

/-- The attribute holds nothing but settings, unless it is ignored. -/
def Spelled (a : Attribute) : Prop :=
  a.path = own → ∃ ss : Settings, a.body = .entries (ss.map .ofSetting)

/-- The settings in attributes, from left to right.  Attributes that are ignored have none. -/
def settings (as : List Attribute) : Settings := (as.flatMap entries).filterMap AttrEntry.setting?

theorem spelled_entries (path : String) (ss : Settings) :
    Spelled ⟨path, .entries (ss.map .ofSetting)⟩ := fun _ => ⟨ss, rfl⟩

theorem spelled_of_ne {a : Attribute} (h : a.path ≠ own) : a.Spelled := fun hown => absurd hown h

theorem Spelled.entries_eq {a : Attribute} (h : a.Spelled) :
    a.entries = (settings [a]).map .ofSetting := by
  have hsetting (ss : Settings) :
      (ss.map AttrEntry.ofSetting).filterMap AttrEntry.setting? = ss := by
    rw [List.filterMap_map]
    exact List.filterMap_some
  rw [settings, List.flatMap_singleton]
  by_cases hown : a.path = own
  · obtain ⟨ss, hss⟩ := h hown
    rw [show a.entries = ss.map .ofSetting by simp [entries, hown, hss], hsetting]
  · simp [entries, hown]

theorem settings_cons (a : Attribute) (as : List Attribute) :
    settings (a :: as) = settings [a] ++ settings as := by
  simp [settings]

theorem entries_eq_of_spelled {as : List Attribute} (h : ∀ a ∈ as, a.Spelled) :
    as.flatMap entries = (settings as).map .ofSetting := by
  induction as with
  | nil => rfl
  | cons a as ih =>
    obtain ⟨ha, has⟩ := List.forall_mem_cons.1 h
    rw [List.flatMap_cons, settings_cons, List.map_append, ha.entries_eq, ih has]

end Attribute

section Fold

variable {σ : Type} {step : σ → String → AttrValue → Except BuildError σ} {s s' : σ}

theorem AttrEntry.exists_of_fold_append {es fs : List AttrEntry}
    (h : AttrEntry.fold step s (es ++ fs) = .ok s') :
    ∃ t, AttrEntry.fold step s es = .ok t ∧ AttrEntry.fold step t fs = .ok s' := by
  induction es generalizing s with
  | nil => exact ⟨s, rfl, h⟩
  | cons e es ih =>
    obtain ⟨key, value, u, he, hu, h⟩ := fold_cons_eq_ok.1 h
    obtain ⟨t, ht, h⟩ := ih h
    exact ⟨t, fold_cons_eq_ok.2 ⟨key, value, u, he, hu, ht⟩, h⟩

/-- Attributes are gone through if all that are read have entries, and these are gone through. -/
theorem Attribute.fold_eq_ok_iff {as : List Attribute} :
    Attribute.fold step s as = .ok s' ↔
      (∀ a ∈ as, a.path = own → ∃ es, a.body = .entries es) ∧
        AttrEntry.fold step s (as.flatMap entries) = .ok s' := by
  refine ⟨fun h => ⟨?_, fold_entries h⟩, fun h => ?_⟩
  · induction as generalizing s with
    | nil => exact List.forall_mem_nil _
    | cons a as ih =>
      rw [fold] at h
      split_ifs at h with hown
      · split at h
        · cases h
        · cases h
        · rename_i es hbody
          split at h
          · cases h
          · exact List.forall_mem_cons.2 ⟨fun _ => ⟨es, hbody⟩, ih h⟩
      · exact List.forall_mem_cons.2 ⟨fun h => absurd h hown, ih h⟩
  · obtain ⟨hbodies, h⟩ := h
    induction as generalizing s with
    | nil => exact h
    | cons a as ih =>
      obtain ⟨hbody, hbodies⟩ := List.forall_mem_cons.1 hbodies
      rw [List.flatMap_cons] at h
      obtain ⟨t, ht, h⟩ := AttrEntry.exists_of_fold_append h
      rw [fold]
      by_cases hown : a.path = own
      · obtain ⟨es, hes⟩ := hbody hown
        rw [show a.entries = es by simp [entries, hown, hes]] at ht
        simp only [hown, hes, ht, ↓reduceIte]
        exact ih hbodies h
      · rw [show a.entries = [] by simp [entries, hown]] at ht
        cases ht
        rw [if_neg hown]
        exact ih hbodies h

end Fold

theorem Wire.exists_of_mem_castNames {name : String} (h : name ∈ castNames) :
    ∃ w, ofCastName? name = some w ∧ w.numeric = true := by
  have hall : ∀ name ∈ castNames, (ofCastName? name).any Wire.numeric := by decide
  exact (Option.any_eq_true _ _).1 (hall name h)

namespace Settings

/-- The settings are accepted: the keys are known, there is at most one cast, it names a numeric
wire kind, and only what can be skipped is skipped. -/
structure Legible (ss : Settings) : Prop where
  keys : ∀ x ∈ ss, x.1 = "cast" ∨ x.1 = "skip"
  once : ss.countP (fun x => x.1 == "cast") ≤ 1
  cast : ∀ name, ("cast", name) ∈ ss → name ∈ Wire.castNames
  skip : ∀ list, ("skip", list) ∈ ss → ∀ c, Text.Listed list c → c = "serdes" ∨ c = "equality"

/-- The settings ask for the modifiers: for the cast that is given, and to leave out what a list of
skipped capabilities names. -/
structure Ask (ss : Settings) (m : Modifiers) : Prop where
  cast : ∀ w, m.cast = some w ↔ ∃ name, ("cast", name) ∈ ss ∧ Wire.ofCastName? name = some w
  offWire : m.offWire = true ↔ ∃ list, ("skip", list) ∈ ss ∧ Text.Listed list "serdes"
  uncompared : m.uncompared = true ↔ ∃ list, ("skip", list) ∈ ss ∧ Text.Listed list "equality"

variable {ss ss' : Settings} {m m' : Modifiers}

theorem Legible.perm (h : Legible ss) (hp : ss.Perm ss') : Legible ss' where
  keys x hx := h.keys x (hp.mem_iff.2 hx)
  once := (hp.countP_eq _).symm.trans_le h.once
  cast name hname := h.cast name (hp.mem_iff.2 hname)
  skip list hlist := h.skip list (hp.mem_iff.2 hlist)

theorem Ask.perm (h : Ask ss m) (hp : ss.Perm ss') : Ask ss' m where
  cast w := by simpa only [hp.mem_iff] using h.cast w
  offWire := by simpa only [hp.mem_iff] using h.offWire
  uncompared := by simpa only [hp.mem_iff] using h.uncompared

theorem Ask.unique (h : Ask ss m) (h' : Ask ss m') : m = m' := by
  have hcast : m.cast = m'.cast := Option.ext fun w => (h.cast w).trans (h'.cast w).symm
  have hoffWire : m.offWire = m'.offWire := Bool.eq_iff_iff.2 (h.offWire.trans h'.offWire.symm)
  have huncompared : m.uncompared = m'.uncompared :=
    Bool.eq_iff_iff.2 (h.uncompared.trans h'.uncompared.symm)
  cases m
  cases m'
  simp_all

theorem legible_nil : Legible [] := ⟨by simp, by simp, by simp, by simp⟩

theorem ask_nil : Ask [] {} := ⟨by simp, by simp, by simp⟩

theorem Legible.of_append (h : Legible (ss ++ ss')) : Legible ss where
  keys x hx := h.keys x (List.mem_append_left _ hx)
  once := (List.sublist_append_left ss ss').countP_le.trans h.once
  cast name hname := h.cast name (List.mem_append_left _ hname)
  skip list hlist := h.skip list (List.mem_append_left _ hlist)

theorem countP_cast_eq_zero_iff :
    ss.countP (fun x => x.1 == "cast") = 0 ↔ ∀ name, ("cast", name) ∉ ss := by
  rw [List.countP_eq_zero]
  constructor
  · intro h name hname
    simpa using h _ hname
  · intro h x hx hcast
    refine h x.2 ?_
    rwa [← show x.1 = "cast" by simpa using hcast]

/-- A further setting is accepted if it is a first cast or a list of what can be skipped. -/
theorem legible_snoc_iff {x : String × String} : Legible (ss ++ [x]) ↔ Legible ss ∧
    ((x.1 = "cast" ∧ x.2 ∈ Wire.castNames ∧ ∀ name, ("cast", name) ∉ ss) ∨
      (x.1 = "skip" ∧ ∀ c, Text.Listed x.2 c → c = "serdes" ∨ c = "equality")) := by
  obtain ⟨key, s⟩ := x
  have hcount : (ss ++ [(key, s)]).countP (fun x => x.1 == "cast") =
      ss.countP (fun x => x.1 == "cast") + if key = "cast" then 1 else 0 := by
    simp [List.countP_append, List.countP_singleton]
  constructor
  · intro h
    have hmem : (key, s) ∈ ss ++ [(key, s)] := List.mem_append_right _ List.mem_cons_self
    refine ⟨h.of_append, ?_⟩
    rcases h.keys _ hmem with hkey | hkey
    · obtain rfl : key = "cast" := hkey
      refine .inl ⟨rfl, h.cast s hmem, countP_cast_eq_zero_iff.1 ?_⟩
      have honce := h.once
      rw [hcount, if_pos rfl] at honce
      exact Nat.le_zero.1 (Nat.le_of_succ_le_succ honce)
    · obtain rfl : key = "skip" := hkey
      exact .inr ⟨rfl, h.skip s hmem⟩
  · rintro ⟨h, ⟨hkey, hs, hfirst⟩ | ⟨hkey, hs⟩⟩
    · obtain rfl : key = "cast" := hkey
      refine ⟨?_, by simp [hcount, countP_cast_eq_zero_iff.2 hfirst], ?_, ?_⟩
      · simpa [or_imp, forall_and] using h.keys
      · simpa [or_imp, forall_and, hs] using h.cast
      · simpa using h.skip
    · obtain rfl : key = "skip" := hkey
      refine ⟨?_, by simpa [hcount] using h.once, ?_, ?_⟩
      · simpa [or_imp, forall_and] using h.keys
      · simpa using h.cast
      · simpa [or_imp, forall_and] using ⟨h.skip, hs⟩

theorem Ask.cast_eq_none_iff (h : Ask ss m) (hl : Legible ss) :
    m.cast = none ↔ ∀ name, ("cast", name) ∉ ss := by
  rw [Option.eq_none_iff_forall_ne_some]
  constructor
  · intro hnone name hname
    obtain ⟨w, hw, -⟩ := Wire.exists_of_mem_castNames (hl.cast name hname)
    exact hnone w ((h.cast w).2 ⟨name, hname, hw⟩)
  · intro hfirst w hw
    obtain ⟨name, hname, -⟩ := (h.cast w).1 hw
    exact hfirst name hname

theorem Ask.snoc_cast (h : Ask ss m) {s : String} {w : Wire} (hw : Wire.ofCastName? s = some w)
    (hfirst : ∀ name, ("cast", name) ∉ ss) :
    Ask (ss ++ [("cast", s)]) { m with cast := some w } where
  cast w' := by simp [hfirst, hw]
  offWire := by simpa using h.offWire
  uncompared := by simpa using h.uncompared

theorem Ask.snoc_skip (h : Ask ss m) (s : String) :
    Ask (ss ++ [("skip", s)])
      { m with
        offWire := m.offWire || (Text.pieces s).contains "serdes"
        uncompared := m.uncompared || (Text.pieces s).contains "equality" } where
  cast w := by simpa using h.cast w
  offWire := by simp [h.offWire, Text.mem_pieces_iff, or_and_right, exists_or]
  uncompared := by simp [h.uncompared, Text.mem_pieces_iff, or_and_right, exists_or]

end Settings

/-! ### Going through the settings -/

namespace Modifiers

variable {m m' : Modifiers}

theorem castTo_eq_ok_iff {name : String} : m.castTo name = .ok m' ↔
    m.cast = none ∧ ∃ w, Wire.ofCastName? name = some w ∧ w.numeric = true ∧
      { m with cast := some w } = m' := by
  unfold castTo
  rcases m.cast with _ | c
  · rcases Wire.ofCastName? name with _ | w
    · simp
    · by_cases hw : w.numeric = true
      · simp [hw]
      · simp [hw]
  · simp

theorem skipAll_eq_ok_iff {cs : List String} : m.skipAll cs = .ok m' ↔
    (∀ c ∈ cs, c = "serdes" ∨ c = "equality") ∧
      { m with
        offWire := m.offWire || cs.contains "serdes"
        uncompared := m.uncompared || cs.contains "equality" } = m' := by
  induction cs generalizing m with
  | nil => simp [skipAll]
  | cons c cs ih =>
    rw [skipAll, skip]
    split_ifs with hserdes hequality
    · simp [ih, hserdes]
    · simp [ih, hequality]
    · simp [hserdes, hequality]

theorem step_string_eq_ok_iff {x : String × String} : m.step x.1 (.string x.2) = .ok m' ↔
    (x.1 = "cast" ∧ m.castTo x.2 = .ok m') ∨
      (x.1 = "skip" ∧ m.skipAll (Text.pieces x.2) = .ok m') := by
  unfold step
  split_ifs with hcast hskip
  · simp [hcast, AttrValue.string?]
  · simp [hskip, AttrValue.string?]
  · simp [hcast, hskip]

/-- One more setting keeps the modifiers in step with what the settings ask for. -/
theorem step_asks {ss : Settings} {x : String × String} (hl : ss.Legible) (ha : ss.Ask m)
    (h : m.step x.1 (.string x.2) = .ok m') :
    Settings.Legible (ss ++ [x]) ∧ Settings.Ask (ss ++ [x]) m' := by
  obtain ⟨key, s⟩ := x
  rw [Settings.legible_snoc_iff]
  rcases step_string_eq_ok_iff.1 h with ⟨hkey, h⟩ | ⟨hkey, h⟩
  · obtain rfl : key = "cast" := hkey
    obtain ⟨hnone, w, hw, hnumeric, rfl⟩ := castTo_eq_ok_iff.1 h
    have hfirst := (ha.cast_eq_none_iff hl).1 hnone
    exact ⟨⟨hl, .inl ⟨rfl, Wire.mem_castNames hw hnumeric, hfirst⟩⟩, ha.snoc_cast hw hfirst⟩
  · obtain rfl : key = "skip" := hkey
    obtain ⟨hcs, rfl⟩ := skipAll_eq_ok_iff.1 h
    exact ⟨⟨hl, .inr ⟨rfl, fun c hc => hcs c (Text.mem_pieces_iff.2 hc)⟩⟩, ha.snoc_skip s⟩

/-- A setting that can be accepted after the others is taken up. -/
theorem exists_step {ss : Settings} {x : String × String} (hl : Settings.Legible (ss ++ [x]))
    (ha : ss.Ask m) : ∃ m', m.step x.1 (.string x.2) = .ok m' := by
  obtain ⟨hl, ⟨hkey, hx, hfirst⟩ | ⟨hkey, hx⟩⟩ := Settings.legible_snoc_iff.1 hl
  · obtain ⟨w, hw, hnumeric⟩ := Wire.exists_of_mem_castNames hx
    exact ⟨_, step_string_eq_ok_iff.2 (.inl ⟨hkey,
      castTo_eq_ok_iff.2 ⟨(ha.cast_eq_none_iff hl).2 hfirst, w, hw, hnumeric, rfl⟩⟩)⟩
  · exact ⟨_, step_string_eq_ok_iff.2 (.inr ⟨hkey,
      skipAll_eq_ok_iff.2 ⟨fun c hc => hx c (Text.mem_pieces_iff.1 hc), rfl⟩⟩)⟩

/-- Further settings are gone through just if all settings together are legible, and this gives what
all of them ask for. -/
theorem fold_settings {ss : Settings} (rest : Settings) (hl : ss.Legible) (ha : ss.Ask m) :
    (∀ m', AttrEntry.fold step m (rest.map .ofSetting) = .ok m' →
      Settings.Legible (ss ++ rest) ∧ Settings.Ask (ss ++ rest) m') ∧
    (Settings.Legible (ss ++ rest) →
      ∃ m', AttrEntry.fold step m (rest.map .ofSetting) = .ok m') := by
  -- the settings move from `rest` to `ss` one by one, and `m` stays what `ss` asks for
  induction rest generalizing ss m with
  | nil =>
    rw [List.append_nil]
    exact ⟨fun m' h => by cases h; exact ⟨hl, ha⟩, fun _ => ⟨m, rfl⟩⟩
  | cons x rest ih =>
    rw [List.append_cons]
    constructor
    · intro m' h
      obtain ⟨_, _, t, hx, ht, h⟩ := AttrEntry.fold_cons_eq_ok.1 h
      cases hx
      obtain ⟨hl, ha⟩ := step_asks hl ha ht
      exact (ih hl ha).1 m' h
    · intro hall
      obtain ⟨t, ht⟩ := exists_step hall.of_append ha
      obtain ⟨hl, ha⟩ := step_asks hl ha ht
      obtain ⟨m', h⟩ := (ih hl ha).2 hall
      exact ⟨m', AttrEntry.fold_cons_eq_ok.2 ⟨_, _, t, rfl, ht, h⟩⟩

/-- Whatever is read was spelled out. -/
theorem spelled_of_read {attributes : List Attribute} (h : read attributes = .ok m) :
    ∀ a ∈ attributes, a.Spelled := by
  obtain ⟨hbodies, h⟩ := Attribute.fold_eq_ok_iff.1 h
  intro a ha hown
  obtain ⟨es, hes⟩ := hbodies a ha hown
  have hsettings : ∀ e ∈ es, e ∈ Set.range AttrEntry.ofSetting := by
    -- every entry was taken up by a step, and no step takes up anything but a setting
    intro e he
    have hmem : e ∈ attributes.flatMap Attribute.entries :=
      List.mem_flatMap.2 ⟨a, ha, by simpa [Attribute.entries, hown, hes] using he⟩
    obtain ⟨key, value, t, t', rfl, ht⟩ := AttrEntry.exists_step h hmem
    rcases step_eq_ok ht with ⟨-, ⟨s, -, rfl⟩, -⟩ | ⟨-, -, s, rfl, -⟩
    · exact ⟨(key, s), rfl⟩
    · exact ⟨(key, s), rfl⟩
  obtain ⟨ss, rfl⟩ : es ∈ Set.range (List.map AttrEntry.ofSetting) := by
    rwa [Set.range_list_map]
  exact ⟨ss, hes⟩

theorem fold_nil_settings (ss : Settings) :
    (∀ m, AttrEntry.fold step {} (ss.map .ofSetting) = .ok m → ss.Legible ∧ ss.Ask m) ∧
      (ss.Legible → ∃ m, AttrEntry.fold step {} (ss.map .ofSetting) = .ok m) :=
  fold_settings ss Settings.legible_nil Settings.ask_nil

/-- Legible settings ask for something. -/
theorem exists_asked {ss : Settings} (h : ss.Legible) : ∃ m, ss.Ask m := by
  obtain ⟨m, hm⟩ := (fold_nil_settings ss).2 h
  exact ⟨m, ((fold_nil_settings ss).1 m hm).2⟩

theorem read_eq_ok_iff {attributes : List Attribute} : read attributes = .ok m ↔
    (∀ a ∈ attributes, a.Spelled) ∧ (Attribute.settings attributes).Legible ∧
      (Attribute.settings attributes).Ask m := by
  have hfold (h : ∀ a ∈ attributes, a.Spelled) : read attributes = .ok m ↔
      AttrEntry.fold step {} ((Attribute.settings attributes).map .ofSetting) = .ok m := by
    rw [← Attribute.entries_eq_of_spelled h, read, Attribute.fold_eq_ok_iff]
    refine and_iff_right fun a ha hown => ?_
    obtain ⟨ss, hss⟩ := h a ha hown
    exact ⟨_, hss⟩
  obtain ⟨hasked, hread⟩ := fold_nil_settings (Attribute.settings attributes)
  constructor
  · intro h
    have hspelled := spelled_of_read h
    exact ⟨hspelled, hasked m ((hfold hspelled).1 h)⟩
  · rintro ⟨hspelled, hl, ha⟩
    obtain ⟨m', h⟩ := hread hl
    rw [hfold hspelled, ha.unique (hasked m' h).2]
    exact h

/-- **Modifiers of a field.**  Let the attributes that are read hold nothing but settings.  They are
accepted just if the settings are legible, and then the field gets the modifiers that the settings
ask for.  So nothing depends on how the settings are arranged: the same settings in another order,
in other attributes or between attributes that are ignored give the same modifiers, or none. -/
theorem read_unordered {attributes : List Attribute} (h : ∀ a ∈ attributes, a.Spelled) :
    ((∃ m, read attributes = .ok m) ↔ (Attribute.settings attributes).Legible) ∧
    (∀ m, read attributes = .ok m → (Attribute.settings attributes).Ask m) ∧
    ∀ others : List Attribute, (∀ a ∈ others, a.Spelled) →
      (Attribute.settings others).Perm (Attribute.settings attributes) →
      ∀ m, read others = .ok m ↔ read attributes = .ok m := by
  refine ⟨⟨?_, fun hl => ?_⟩, fun m hm => (read_eq_ok_iff.1 hm).2.2, fun others ho hp m => ?_⟩
  · rintro ⟨m, hm⟩
    exact (read_eq_ok_iff.1 hm).2.1
  · obtain ⟨m, ha⟩ := exists_asked hl
    exact ⟨m, read_eq_ok_iff.2 ⟨h, hl, ha⟩⟩
  · rw [read_eq_ok_iff, read_eq_ok_iff]
    constructor
    · rintro ⟨-, hl, ha⟩
      exact ⟨h, hl.perm hp, ha.perm hp⟩
    · rintro ⟨-, hl, ha⟩
      exact ⟨ho, hl.perm hp.symm, ha.perm hp.symm⟩

/-- A cast and a list of skipped capabilities in one attribute. -/
def gathered : List Attribute :=
  [⟨"cod", .entries [.keyed "cast" (.string "fixed_u32"),
    .keyed "skip" (.string "equality,, serdes ")]⟩]

/-- The same settings the other way round, between attributes that are ignored. -/
def scattered : List Attribute :=
  [⟨"doc", .value⟩, ⟨"cod", .entries [.keyed "skip" (.string "equality,, serdes ")]⟩,
    ⟨"inline", .bare⟩, ⟨"cod", .entries [.keyed "cast" (.string "fixed_u32")]⟩]

theorem read_unordered_scattered :
    (∀ a ∈ gathered, a.Spelled) ∧ (∀ a ∈ scattered, a.Spelled) ∧
    (Attribute.settings scattered).Perm (Attribute.settings gathered) ∧
    (Attribute.settings gathered).Legible ∧
    read scattered = .ok ⟨some (.fixed ⟨false, .w32⟩), true, true⟩ := by
  have hgathered : ∀ a ∈ gathered, a.Spelled :=
    List.forall_mem_singleton.2
      (Attribute.spelled_entries _ [("cast", "fixed_u32"), ("skip", "equality,, serdes ")])
  have hscattered : ∀ a ∈ scattered, a.Spelled := by
    simp only [scattered, List.forall_mem_cons]
    exact ⟨Attribute.spelled_of_ne (by decide),
      Attribute.spelled_entries _ [("skip", "equality,, serdes ")],
      Attribute.spelled_of_ne (by decide), Attribute.spelled_entries _ [("cast", "fixed_u32")],
      List.forall_mem_nil _⟩
  have hperm : (Attribute.settings scattered).Perm (Attribute.settings gathered) := by decide
  have hread : read gathered = .ok ⟨some (.fixed ⟨false, .w32⟩), true, true⟩ := rfl
  obtain ⟨haccept, -, hothers⟩ := read_unordered hgathered
  exact ⟨hgathered, hscattered, hperm, haccept.1 ⟨_, hread⟩,
    (hothers scattered hscattered hperm _).2 hread⟩

end Modifiers

end Marshal
