import Marshal.Proofs.Failure
import Marshal.Proofs.Parts
import Marshal.Proofs.RoundTrip
import Mathlib.Data.Int.ModEq

/-!
# Integers that are cast

A cast reaches every scalar of a field, however deep it is (`Field.spelledOut_shape`), so each
integer of the field is wrapped into the wire type on its way out and into its own type on its way
back.  Each time the low bits stay.  `IntType.recovers_wrap` says what that leaves of the integer,
`Schema.Fits.survives` carries it through the containers around it, and `Schema.cast_integers` puts
it in terms of declared fields.

The receiving side never refuses an integer for its own type: what can go wrong is what can go wrong
for the wire type (`Schema.decode_cast_eq_ok`).
-/

namespace Marshal

theorem Width.modulus_eq_two_pow (w : Width) : w.modulus = 2 ^ w.bits := by cases w <;> rfl

namespace IntType

variable {t u : IntType} {v : Int}

theorem coe_modulus (t : IntType) : (t.modulus : Int) = 2 ^ t.width.bits := by
  rw [modulus, Width.modulus_eq_two_pow, Nat.cast_pow, Nat.cast_ofNat]

/-- The low bits stay. -/
theorem wrap_modEq (t : IntType) (v : Int) : t.wrap v ≡ v [ZMOD 2 ^ t.width.bits] := by
  rw [← t.coe_modulus]
  unfold wrap
  split_ifs
  · exact Int.bmod_emod
  · exact Int.mod_modEq v t.modulus

theorem wrap_congr {a b : Int} (h : a ≡ b [ZMOD 2 ^ t.width.bits]) : t.wrap a = t.wrap b := by
  rw [← t.coe_modulus] at h
  rw [← t.wrap_emod a, h, t.wrap_emod b]

/-- An integer that goes through a type with at least as many bits keeps all of its own. -/
theorem wrap_wrap_of_le (hbits : t.width.bits ≤ u.width.bits) (v : Int) :
    t.wrap (u.wrap v) = t.wrap v :=
  wrap_congr ((u.wrap_modEq v).of_dvd (pow_dvd_pow 2 hbits))

/-- What an integer `v` of type `t` is when it comes back from the type `u`: an integer of type `t`
with the low bits that `u` has, and `v` itself if these are all. -/
structure Recovers (t u : IntType) (v w : Int) : Prop where
  inRange : t.InRange w
  low : w ≡ v [ZMOD 2 ^ u.width.bits]
  same : t.width.bits ≤ u.width.bits → w = v

theorem recovers_wrap (u : IntType) (hv : t.InRange v) : t.Recovers u v (t.wrap (u.wrap v)) := by
  have hsame (hbits : t.width.bits ≤ u.width.bits) : t.wrap (u.wrap v) = v := by
    rw [wrap_wrap_of_le hbits, wrap_of_inRange hv]
  refine ⟨t.inRange_wrap _, ?_, hsame⟩
  by_cases hbits : t.width.bits ≤ u.width.bits
  · rw [hsame hbits]
  · -- the way back keeps more bits than the way out has left
    have hback := (t.wrap_modEq (u.wrap v)).of_dvd (pow_dvd_pow 2 (Nat.le_of_not_le hbits))
    exact hback.trans (u.wrap_modEq v)

end IntType

/-! ### Fields with a cast -/

/-- What passes from a value to its parts passes to all that is inside it. -/
theorem Schema.keeps_within {Γ : Schema} {P : Shape × Value → Prop} {x y : Shape × Value}
    (hstep : ∀ {x y}, Γ.Part x y → P x → P y) (h : Γ.Within x y) (hx : P x) : P y := by
  induction h with
  | refl => exact hx
  | tail _ hp ih => exact hstep hp ih

namespace Shape

/-- The shape is spelled out down to its scalars and converted values, and all of these are as
said. -/
def SpelledOut (leaf : Shape → Prop) : Shape → Prop
  | scalar s cast => leaf (.scalar s cast)
  | converted c w => leaf (.converted c w)
  | delegate _ | ref _ => False
  | staged s | option s | array _ s | seq s => s.SpelledOut leaf
  | map _ key value => key.SpelledOut leaf ∧ value.SpelledOut leaf

/-- A scalar or a converted value that is written in the wire kind `w` by a cast. -/
def WrittenAs (w : Wire) : Shape → Prop
  | scalar _ cast => cast = some w
  | converted _ w' => w' = w
  | _ => False

/-- An integer with at most as many bits as `u` has. -/
def NoWiderThan (u : IntType) : Shape → Prop
  | scalar (.int t) _ => t.width.bits ≤ u.width.bits
  | _ => False

theorem SpelledOut.part {Γ : Schema} {leaf : Shape → Prop} {s s' : Shape} {v v' : Value}
    (h : s.SpelledOut leaf) (hp : Γ.Part (s, v) (s', v')) : s'.SpelledOut leaf := by
  cases hp with
  | delegate | slot | held => cases h
  | staged | present | array | seq => exact h
  | key => exact h.1
  | value => exact h.2

theorem SpelledOut.within {Γ : Schema} {leaf : Shape → Prop} {s s' : Shape} {v v' : Value}
    (h : s.SpelledOut leaf) (hw : Γ.Within (s, v) (s', v')) : s'.SpelledOut leaf :=
  Schema.keeps_within (P := fun x => x.1.SpelledOut leaf) (fun hp hx => hx.part hp) hw h

end Shape

theorem Field.info_withModifiers (f : Field) (m : Modifiers) :
    (f.withModifiers m).info = { f.info with modifiers := m } := by cases f <;> rfl

theorem Field.spelledOut_withModifiers {f : Field} {m : Modifiers} {w : Wire}
    {vocabulary : Vocabulary} {s : Shape} (hm : m.cast = some w)
    (h : (f.withModifiers m).shape? vocabulary = some s) : s.SpelledOut (Shape.WrittenAs w) := by
  induction f generalizing s with
  | leaf info t wire =>
    rw [withModifiers] at h
    cases wire with
    | some wire =>
      cases h
      exact hm
    | none =>
      simp only [shape?, hm] at h
      split at h <;> cases h
      rfl
  | array info t depth inner ih =>
    simp only [withModifiers, shape?] at h
    split at h <;> cases h
    rename_i hinner
    rw [Shape.SpelledOut]
    exact ih hinner
  | map info t depth key value ihk ihv =>
    simp only [withModifiers, shape?] at h
    split at h <;> cases h
    rename_i hk hv
    exact ⟨ihk hk, ihv hv⟩
  | sequence _ _ _ inner ih | optional _ _ _ inner ih | synonym _ _ _ inner ih =>
    obtain ⟨s', hs', rfl⟩ := Option.map_eq_some_iff.1 h
    rw [Shape.SpelledOut]
    exact ih hs'
  | member info tag depth inner ih => exact ih h

theorem FieldDecl.Builds.eq_withModifiers {d : FieldDecl} {f : Field} (h : d.Builds f) :
    ∃ g, f = Field.withModifiers f.modifiers g := by
  have hfinish {name : String} {g f : Field} (h : g.finish name d.attributes = .ok f) :
      ∃ g, f = Field.withModifiers f.modifiers g := by
    obtain ⟨m, -, rfl⟩ := Field.finish_eq_ok h
    exact ⟨_, by rw [Field.modifiers, Field.info_withModifiers]⟩
  cases h with
  | field h =>
    obtain ⟨g, -, h⟩ := Field.build_eq_ok h
    exact hfinish h
  | synonym _ h => exact hfinish h
  | @member name f tag h =>
    obtain ⟨g, -, h⟩ := Field.build_eq_ok h
    obtain ⟨g, hg⟩ := hfinish h
    refine ⟨.member g.info tag 0 g, ?_⟩
    show Field.member f.info tag 0 f =
      .member { g.info with modifiers := f.modifiers } tag 0 (g.withModifiers f.modifiers)
    rw [← Field.info_withModifiers, ← hg]

/-- A cast reaches all there is in a field. -/
theorem Field.spelledOut_shape {d : FieldDecl} {f : Field} {w : Wire} {vocabulary : Vocabulary}
    {s : Shape} (hd : d.Builds f) (hc : f.modifiers.cast = some w)
    (hs : f.shape? vocabulary = some s) : s.SpelledOut (Shape.WrittenAs w) := by
  obtain ⟨g, hg⟩ := hd.eq_withModifiers
  rw [hg] at hs
  exact spelledOut_withModifiers hc hs

/-! ### What comes back -/

/-- The second value is what is left of the first one in a field that is cast to integers of type
`u`.  Each integer has its low bits back, and floating point numbers and converted values went
through the integers of type `u`.  Keys may lose what they differ in, and then the later entry
counts. -/
def Shape.Survives (u : IntType) : Shape → Value → Value → Prop
  | scalar (.int t) _, .datum (.int x), .datum (.int y) => t.Recovers u x y
  | scalar (.float f) _, .datum (.float a), .datum (.float b) => b = f.ofInt (f.toInt u a)
  | converted c _, .datum d, .datum d' => d' = c.ofWire (c.toWire d)
  | staged s, v, w => s.Survives u v w
  | option _, .absent, .absent => True
  | option s, .present v, .present w => s.Survives u v w
  | array _ s, .items vs, .items ws | seq s, .items vs, .items ws =>
    List.Forall₂ (s.Survives u) vs ws
  | map keys key value, .entries es, w =>
    ∃ fs : Entries, w = .entries (Entries.ofList fs keys.compare) ∧
      List.Forall₂ (fun e f => key.Survives u e.1 f.1 ∧ value.Survives u e.2 f.2) es fs
  | _, _, _ => False

namespace Schema

variable {Γ : Schema} {s : Shape} {v r : Value} {w : Wire} {u : IntType}

/-- One number: there and back. -/
theorem survives_cast {a : Scalar} {d : Datum} (hw : w.scalar = .int u) (ha : a.numeric)
    (hd : a.Has d) (cast : Option Wire) :
    (Shape.scalar a cast).Survives u (.datum d)
      (.datum (w.scalar.convert a (a.convert w.scalar d))) := by
  rw [hw]
  cases a with
  | int t =>
    cases d with
    | int x => exact IntType.recovers_wrap u hd
    | float | bool | text => cases hd
  | float f =>
    cases d with
    | float bits => exact rfl
    | int | bool | text => cases hd
  | bool | text => cases ha

/-- What is written for a value of a shape that is cast throughout is taken back, and what is left
of the value depends on the wire type alone. -/
theorem Fits.survives (hΓ : Γ.DefaultsFit) (hv : Γ.Fits s v) (hr : Γ.Fits s r)
    (hs : s.SpelledOut (Shape.WrittenAs w)) (hw : w.scalar = .int u) :
    ∃ v', Γ.Accepts s r v v' ∧ s.Survives u v v' := by
  induction hv generalizing r with
  | scalar => cases hs
  | cast ha hnum hd =>
    cases hs
    exact ⟨_, accepts_cast ha hnum hd r, survives_cast hw ha hd _⟩
  | converted hc hd => exact ⟨_, accepts_converted (hc _ hd) r, rfl⟩
  | delegate | record | empty | held => cases hs
  | staged h ih =>
    obtain ⟨v', hacc, hsurv⟩ := ih (h.blank hΓ) hs
    exact ⟨v', accepts_staged hacc r, hsurv⟩
  | absent => exact ⟨.absent, accepts_absent _ r, trivial⟩
  | present h ih =>
    obtain ⟨v', hacc, hsurv⟩ := ih (h.blank hΓ) hs
    exact ⟨.present v', accepts_present hacc r, hsurv⟩
  | @array size s vs hl h ih =>
    cases hr with
    | @array _ _ rs hl' hrs =>
      obtain ⟨ws, hws⟩ : ∃ ws, List.Forall₂
          (fun x w => Γ.Accepts s x.1 x.2 w ∧ s.Survives u x.2 w) (rs.zip vs) ws :=
        exists_forall₂ fun x hx =>
          ih x.2 (List.of_mem_zip hx).2 (hrs x.1 (List.of_mem_zip hx).1) hs
      have hlen : rs.length = vs.length := hl'.trans hl.symm
      refine ⟨_, accepts_array hl hlen (hws.imp fun _ _ hx => hx.1), ?_⟩
      -- what comes back does not depend on the items that were there
      show List.Forall₂ (s.Survives u) vs ws
      rw [← List.map_snd_zip hlen.ge]
      exact List.forall₂_map_left_iff.2 (hws.imp fun _ _ hx => hx.2)
  | seq hl h ih =>
    obtain ⟨ws, hws⟩ := exists_forall₂ fun v hv => ih v hv ((h v hv).blank hΓ) hs
    exact ⟨_, accepts_seq hl (hws.imp fun _ _ hx => hx.1) r, hws.imp fun _ _ hx => hx.2⟩
  | @map keys key value es hl hd hk hv ihk ihv =>
    obtain ⟨fs, hfs⟩ : ∃ fs : Entries, List.Forall₂ (fun e f =>
        (Γ.Accepts key (Γ.blank key) e.1 f.1 ∧ key.Survives u e.1 f.1) ∧
          Γ.Accepts value (Γ.blank value) e.2 f.2 ∧ value.Survives u e.2 f.2) es fs := by
      refine exists_forall₂ fun e he => ?_
      obtain ⟨k, hk⟩ := ihk e he ((hk e he).blank hΓ) hs.1
      obtain ⟨x, hx⟩ := ihv e he ((hv e he).blank hΓ) hs.2
      exact ⟨(k, x), hk, hx⟩
    exact ⟨_, accepts_map hl (hfs.imp fun _ _ hx => ⟨hx.1.1, hx.2.1⟩) r, fs, rfl,
      hfs.imp fun _ _ hx => ⟨hx.1.2, hx.2.2⟩⟩

theorem Fits.within {s' : Shape} {v' : Value} (h : Γ.Fits s v) (hw : Γ.Within (s, v) (s', v')) :
    Γ.Fits s' v' :=
  keeps_within (P := fun x => Γ.Fits x.1 x.2) (fun hp hx => hx.part hp) hw h

/-- A shape that is spelled out has no records. -/
theorem whole_of_spelledOut {leaf : Shape → Prop} (hs : s.SpelledOut leaf) (v : Value) :
    Γ.Whole s v :=
  fun _ _ _ hw _ _ _ => (hs.within hw).elim

/-- Nothing is lost if the wire type has the bits of every integer. -/
theorem Fits.exact_of_wide (hv : Γ.Fits s v) (hs : s.SpelledOut (Shape.WrittenAs w))
    (hw : w.scalar = .int u) (hwide : s.SpelledOut (Shape.NoWiderThan u)) : Γ.Exact s v where
  cast a w' d hin := by
    obtain rfl : w' = w := Option.some.inj (hs.within hin)
    have hbits := hwide.within hin
    have hd := hv.within hin
    rw [hw]
    cases hd with
    | cast ha hnum hd =>
      cases a with
      | int t =>
        cases d with
        | int x => exact congrArg Datum.int ((IntType.recovers_wrap u hd).same hbits)
        | float | bool | text => cases hd
      | float | bool | text => cases hbits
  converted _ _ _ hin := (hwide.within hin).elim
  keys _ _ _ _ hin e _ := whole_of_spelledOut (hwide.within hin).1 e.1

end Schema

/-! ### What is refused -/

/-- A wire kind of integers yields integers of its type. -/
theorem Wire.int_of_read {w : Wire} {u : IntType} {bs : List UInt8} {d : Datum} {n : Nat}
    (hw : w.scalar = .int u) (h : w.read bs = .ok (d, n)) : ∃ x, d = .int x ∧ u.InRange x := by
  cases w with
  | fixed t =>
    cases hw
    obtain ⟨cs, -, hd⟩ := Reader.map_eq_ok.1 h
    exact ⟨_, hd.symm, u.inRange_wrap _⟩
  | var t =>
    cases hw
    rw [read] at h
    split_ifs at h
    all_goals
      obtain ⟨x, -, hx⟩ := Reader.refine_eq_ok.1 h
      unfold accept at hx
      split_ifs at hx with hrange
      cases hx
      exact ⟨_, rfl, hrange⟩
  | float | bool | text => cases hw

namespace Schema

variable {Γ : Schema} {r : Value} {w : Wire} {t u : IntType} {style : Style} {bs : List UInt8}

/-- An integer that was read is brought into the range of the declared type. -/
theorem decode_cast_eq_ok {x : Int} {n : Nat} (hw : w.scalar = .int u)
    (h : w.read bs = .ok (.int x, n)) :
    Γ.decode style (.scalar (.int t) (some w)) r bs = ⟨.ok n, .datum (.int (t.wrap x))⟩ := by
  refine Decoder.ofReader_eq_ok.2 (Reader.map_eq_ok.2 ⟨.int x, h, ?_⟩)
  rw [hw]
  rfl

/-- **Integers under a cast.**  Let a field be cast to a wire kind of integers.  What its code writes
for a value of the field is taken back, whatever follows it and whatever the receiver held.  Each
integer in the value, however deep, comes back as an integer of its type with the same low bits, as
many as the wire type has, and as itself if these are all its bits; so if the wire type has the bits
of every integer, the whole value comes back, its maps in the order of their keys.

On any input whatsoever, an integer under the cast fails where the reader of the wire kind fails,
with the same fault, and nowhere else: any other integer is brought into its range. -/
theorem cast_integers {d : FieldDecl} {f : Field} {vocabulary : Vocabulary} {s : Shape}
    (hd : d.Builds f) (hc : f.modifiers.cast = some w) (hw : w.scalar = .int u)
    (hs : f.shape? vocabulary = some s) (Γ : Schema) (hΓ : Γ.DefaultsFit) :
    (∀ v r, Γ.Fits s v → Γ.Fits s r → ∃ e v', s.Survives u v v' ∧
      (s.SpelledOut (Shape.NoWiderThan u) → Γ.Settled s v' ∧ v'.sorted = v.sorted) ∧
      (∀ style b, Γ.encodeOnto style s v b = b ++ e) ∧
      ∀ style rest, Γ.decode style s r (e ++ rest) = ⟨.ok e.length, v'⟩) ∧
    ∀ t style r bs,
      (∀ e r', Γ.decode style (.scalar (.int t) (some w)) r bs = ⟨.error e, r'⟩ ↔
        w.read bs = .error e ∧ r = r') ∧
      ∀ x n, w.read bs = .ok (x, n) → ∃ v, x = .int v ∧ u.InRange v ∧
        Γ.decode style (.scalar (.int t) (some w)) r bs = ⟨.ok n, .datum (.int (t.wrap v))⟩ ∧
        t.InRange (t.wrap v) ∧ t.wrap v ≡ v [ZMOD 2 ^ t.width.bits] := by
  have hcast := Field.spelledOut_shape hd hc hs
  refine ⟨fun v r hv hr => ?_, fun t style r bs => ⟨fun e r' => ?_, fun x n hread => ?_⟩⟩
  · obtain ⟨v', haccept, hsurvives⟩ := hv.survives hΓ hr hcast hw
    refine ⟨Γ.encode .generic s v, v', hsurvives, fun hwide => ?_, fun style b => ?_,
      haccept.decode hv⟩
    · -- decoding has one outcome, and where nothing is lost it is the value
      obtain ⟨v'', haccept', hlands⟩ := hv.arrives hΓ hr
      have hsame := (haccept.decode hv .generic []).symm.trans (haccept'.decode hv .generic [])
      obtain rfl : v' = v'' := congrArg Outcome.receiver hsame
      have hexact := hv.exact_of_wide hcast hw hwide
      exact ⟨(hlands hexact).settled hv hexact,
        (hlands hexact).sorted_eq hv (whole_of_spelledOut hwide v)⟩
    · rw [encodeOnto_eq, hv.encode_style style]
  · exact decode_scalar_eq_error_iff
  · obtain ⟨v, rfl, hv⟩ := Wire.int_of_read hw hread
    exact ⟨v, rfl, hv, decode_cast_eq_ok hw hread, t.inRange_wrap v, t.wrap_modEq v⟩

/-- A field of type `BTreeMap<i8, i32>` that is cast to `u16`. -/
def marks : FieldDecl :=
  { type := .apply "BTreeMap" [.named "i8", .named "i32"],
    attributes := [⟨"cod", .entries [.keyed "cast" (.string "u16")]⟩] }

/-- What is built from it. -/
def marksField : Field :=
  let m : Modifiers := { cast := some (.var ⟨false, .w16⟩) }
  .map ⟨"self.marks", m⟩ marks.type 0
    (.leaf ⟨"self.marks.key0", m⟩ (.named "i8") (some (.fixed ⟨true, .w8⟩)))
    (.leaf ⟨"self.marks[key0]", m⟩ (.named "i32") (some (.var ⟨true, .w32⟩)))

/-- The shape of the field. -/
def marksShape : Shape :=
  .map .sorted (.scalar (.int ⟨true, .w8⟩) (some (.var ⟨false, .w16⟩)))
    (.scalar (.int ⟨true, .w32⟩) (some (.var ⟨false, .w16⟩)))

/-- A value of the field. -/
def marksOf (es : List (Int × Int)) : Value :=
  .entries (es.map fun e => (.datum (.int e.1), .datum (.int e.2)))

theorem fits_marks {es : List (Int × Int)} (hl : es.length < 2 ^ 64)
    (hd : (es.map Prod.fst).Nodup)
    (h : ∀ e ∈ es, IntType.InRange ⟨true, .w8⟩ e.1 ∧ IntType.InRange ⟨true, .w32⟩ e.2) :
    Schema.Fits {} marksShape (marksOf es) := by
  refine .map ((List.length_map _).trans_lt hl) ?_ ?_ ?_
  · have hkeys : ((es.map Prod.fst).map fun x => Value.datum (.int x)).Nodup :=
      hd.map fun x y hxy => by cases hxy; rfl
    rw [List.map_map] at hkeys
    refine Entries.pairwise_separate_compare_iff.2 ?_
    rw [List.map_map]
    exact hkeys
  · intro x hx
    obtain ⟨e, he, rfl⟩ := List.mem_map.1 hx
    exact .cast rfl rfl (h e he).1
  · intro x hx
    obtain ⟨e, he, rfl⟩ := List.mem_map.1 hx
    exact .cast rfl rfl (h e he).2

/-- The negative key survives in the wider unsigned type, the values keep 16 bits. -/
theorem cast_integers_marks :
    marks.Builds marksField ∧ marksField.modifiers.cast = some (.var ⟨false, .w16⟩) ∧
    marksField.shape? {} = some marksShape ∧
    Schema.Fits {} marksShape (marksOf [(-1, 70000), (3, -2)]) ∧
    Schema.Fits {} marksShape (marksOf []) ∧
    (∀ b, Schema.encodeOnto {} .expanded marksShape (marksOf [(-1, 70000), (3, -2)]) b =
      b ++ [2, 255, 255, 3, 240, 34, 3, 254, 255, 3]) ∧
    (∀ rest, Schema.decode {} .expanded marksShape (marksOf [])
      ([2, 255, 255, 3, 240, 34, 3, 254, 255, 3] ++ rest) =
        ⟨.ok 10, marksOf [(-1, 4464), (3, 65534)]⟩) ∧
    Schema.decode {} .expanded (.scalar (.int ⟨true, .w8⟩) (some (.var ⟨false, .w16⟩)))
      (.datum (.int 0)) [172, 2] = ⟨.ok 2, .datum (.int 44)⟩ := by
  have hbuild : Field.build "self.marks" marks 0 = .ok marksField := rfl
  have hd : marks.Builds marksField := .field hbuild
  have hv : Schema.Fits {} marksShape (marksOf [(-1, 70000), (3, -2)]) :=
    fits_marks (by decide) (by decide) (by decide)
  have hr : Schema.Fits {} marksShape (marksOf []) :=
    fits_marks (by decide) (by decide) (by decide)
  have hs : marksField.shape? {} = some marksShape := rfl
  obtain ⟨hthere, hany⟩ := cast_integers hd rfl rfl hs {} (defaultsFit_of_nil rfl)
  obtain ⟨e, v', -, -, hencode, hdecode⟩ := hthere _ _ hv hr
  obtain rfl : [2, 255, 255, 3, 240, 34, 3, 254, 255, 3] = e := by
    have he := hencode .expanded []
    rwa [show Schema.encodeOnto {} .expanded marksShape (marksOf [(-1, 70000), (3, -2)]) [] =
      [2, 255, 255, 3, 240, 34, 3, 254, 255, 3] by cbv] at he
  obtain rfl : marksOf [(-1, 4464), (3, 65534)] = v' := by
    have hw := hdecode .expanded []
    rw [show Schema.decode {} .expanded marksShape (marksOf [])
      ([2, 255, 255, 3, 240, 34, 3, 254, 255, 3] ++ []) =
        ⟨.ok 10, marksOf [(-1, 4464), (3, 65534)]⟩ by cbv] at hw
    exact congrArg Outcome.receiver hw
  refine ⟨hd, rfl, hs, hv, hr, hencode .expanded, hdecode .expanded, ?_⟩
  obtain ⟨v, hv, -, hleaf, -⟩ := (hany ⟨true, .w8⟩ .expanded (.datum (.int 0)) [172, 2]).2
    (.int 300) 2 (by decide +kernel)
  cases hv
  exact hleaf

end Schema

end Marshal
