import Marshal.Proofs.Same
import Marshal.Proofs.RoundTrip

/-!
# Expanded and generic code agree

Expanded code reads bytes at once and refuses a count that exceeds the number of bytes left, and
generic code reads item by item.  On *plain* shapes (`Shape.plain`: scalars, optional values,
arrays, sequences and maps, none of them cast) the two accept the same inputs and read the same
values from them, also into different receivers (`Shape.decode_agrees`).  They need not fail alike:
where a count is too great, expanded code fails for the end of the input, while generic code may
meet another fault among the items that are there (`Fault.StandsFor`).

Together with the bytes that are written and the values that count as equal, this makes the code
of a slot, that of a delegate and that of a record of one staged slot interchangeable
(`Schema.plain_agree`).
-/

namespace Marshal

/-! ### Decoders that agree -/

/-- The fault `e` of expanded code stands for the fault `e'` of code of another style. -/
def Fault.StandsFor (style : Style) (e e' : Fault) : Prop :=
  e = e' ∨ (style = .generic ∧ e = .truncated)

/-- Two readers read the same values, and where one of them fails so does the other. -/
structure Reader.Agrees {α : Type} (style : Style) (r r' : Reader α) : Prop where
  ok : ∀ ⦃bs a n⦄, r bs = .ok (a, n) → r' bs = .ok (a, n)
  error : ∀ ⦃bs e⦄, r bs = .error e → ∃ e', r' bs = .error e' ∧ e.StandsFor style e'

/-- Two decoders, each with its receiver, read the same values, and where one of them fails so does
the other. -/
structure Decoder.Agrees (style : Style) (d d' : Decoder) (v v' : Value) : Prop where
  ok : ∀ ⦃bs n w⦄, d v bs = ⟨.ok n, w⟩ → d' v' bs = ⟨.ok n, w⟩
  error : ∀ ⦃bs e w⦄, d v bs = ⟨.error e, w⟩ →
    ∃ e' w', d' v' bs = ⟨.error e', w'⟩ ∧ e.StandsFor style e'

section Agrees

variable {α β : Type} {style : Style}

namespace Reader

theorem agrees_refl (r : Reader α) : r.Agrees style r where
  ok _ _ _ h := h
  error _ e h := ⟨e, h, .inl rfl⟩

theorem Agrees.map {r r' : Reader α} (h : r.Agrees style r') (f : α → β) :
    (r.map f).Agrees style (r'.map f) where
  ok bs b n hb := by
    obtain ⟨a, ha, hf⟩ := map_eq_ok.1 hb
    exact map_eq_ok.2 ⟨a, h.ok ha, hf⟩
  error bs e he := by
    obtain ⟨e', he', hs⟩ := h.error (map_eq_error.1 he)
    exact ⟨e', map_eq_error.2 he', hs⟩

theorem Agrees.andThen {r r' : Reader α} {next next' : α → Reader β} (h : r.Agrees style r')
    (hnext : ∀ a, (next a).Agrees style (next' a)) :
    (r.andThen next).Agrees style (r'.andThen next') where
  ok bs b k hb := by
    obtain ⟨a, n, m, ha, hm, hk⟩ := andThen_eq_ok.1 hb
    exact andThen_eq_ok.2 ⟨a, n, m, h.ok ha, (hnext a).ok hm, hk⟩
  error bs e he := by
    rcases andThen_eq_error.1 he with hr | ⟨a, n, ha, hm⟩
    · obtain ⟨e', he', hs⟩ := h.error hr
      exact ⟨e', andThen_eq_error.2 (.inl he'), hs⟩
    · obtain ⟨e', he', hs⟩ := (hnext a).error hm
      exact ⟨e', andThen_eq_error.2 (.inr ⟨a, n, h.ok ha, he'⟩), hs⟩

theorem Agrees.collect_ok {r r' : Reader α} (h : r.Agrees style r') {count used k : Nat}
    {bs : List UInt8} {got as : Array α} (hk : r.collect count bs used got = (.ok k, as)) :
    r'.collect count bs used got = (.ok k, as) := by
  induction count generalizing bs used got with
  | zero => exact hk
  | succ count ih =>
    obtain ⟨a, n, ha, hk⟩ := collect_succ_eq_ok.1 hk
    exact collect_succ_eq_ok.2 ⟨a, n, h.ok ha, ih hk⟩

theorem Agrees.collect_error {r r' : Reader α} (h : r.Agrees style r') {count used : Nat}
    {bs : List UInt8} {got as : Array α} {e : Fault}
    (hk : r.collect count bs used got = (.error e, as)) :
    ∃ e' as', r'.collect count bs used got = (.error e', as') ∧ e.StandsFor style e' := by
  induction count generalizing bs used got with
  | zero => cases hk
  | succ count ih =>
    rcases collect_succ_eq_error.1 hk with ⟨he, -⟩ | ⟨a, n, ha, hk⟩
    · obtain ⟨e', he', hs⟩ := h.error he
      exact ⟨e', got, collect_succ_eq_error.2 (.inl ⟨he', rfl⟩), hs⟩
    · obtain ⟨e', as', he', hs⟩ := ih hk
      exact ⟨e', as', collect_succ_eq_error.2 (.inr ⟨a, n, h.ok ha, he'⟩), hs⟩

end Reader

namespace Decoder

theorem agrees_ofReader {r r' : Reader Value} (h : r.Agrees style r') (v v' : Value) :
    Agrees style (ofReader r) (ofReader r') v v' where
  ok bs n w hn := ofReader_eq_ok.2 (h.ok (ofReader_eq_ok.1 hn))
  error bs e w he := by
    obtain ⟨e', he', hs⟩ := h.error (ofReader_eq_error.1 he).1
    exact ⟨e', v', ofReader_eq_error.2 ⟨he', rfl⟩, hs⟩

theorem Agrees.fresh {d d' : Decoder} {b : Value} (h : Agrees style d d' b b) :
    (d.fresh b).Agrees style (d'.fresh b) where
  ok bs w n hn := fresh_eq_ok.2 (h.ok (fresh_eq_ok.1 hn))
  error bs e he := by
    obtain ⟨w, hw⟩ := fresh_eq_error.1 he
    obtain ⟨e', w', he', hs⟩ := h.error hw
    exact ⟨e', fresh_eq_error.2 ⟨w', he'⟩, hs⟩

theorem Agrees.ok_iff {d d' : Decoder} {v v' : Value} (h : Agrees style d d' v v')
    {bs : List UInt8} {n : Nat} {w : Value} : d v bs = ⟨.ok n, w⟩ ↔ d' v' bs = ⟨.ok n, w⟩ := by
  refine ⟨fun hn => h.ok hn, fun hn => ?_⟩
  rcases hd : d v bs with ⟨e | n', w'⟩
  · obtain ⟨e', w'', he', -⟩ := h.error hd
    cases hn.symm.trans he'
  · exact (h.ok hd).symm.trans hn

theorem Agrees.standsFor {d d' : Decoder} {v v' : Value} (h : Agrees style d d' v v')
    {bs : List UInt8} {e e' : Fault} (he : (d v bs).result = .error e)
    (he' : (d' v' bs).result = .error e') : e.StandsFor style e' := by
  rcases hd : d v bs with ⟨result, w⟩
  rw [hd] at he
  obtain ⟨e'', w', hd', hs⟩ := h.error (hd.trans (congrArg (Outcome.mk · w) he))
  rw [hd'] at he'
  exact Except.error.inj he' ▸ hs

/-- Expanded code agrees with itself to the fault. -/
theorem Agrees.result_eq {d d' : Decoder} {v v' : Value} (h : Agrees .expanded d d' v v')
    (bs : List UInt8) : (d' v' bs).result = (d v bs).result := by
  rcases hd : d v bs with ⟨e | n, w⟩
  · obtain ⟨e', w', hd', hs⟩ := h.error hd
    rw [hd', hs.resolve_right fun hs => Style.noConfusion hs.1]
  · rw [h.ok hd]

/-- A value that is decoded apart starts from a receiver of its own. -/
theorem Agrees.staged {d d' : Decoder} {v b : Value} (h : Agrees style d d' v b) (v' : Value) :
    Agrees style d (ofReader (d'.fresh b)) v v' where
  ok bs n w hn := ofReader_eq_ok.2 (fresh_eq_ok.2 (h.ok hn))
  error bs e w he := by
    obtain ⟨e', w', he', hs⟩ := h.error he
    exact ⟨e', v', ofReader_eq_error.2 ⟨fresh_eq_error.2 ⟨w', he'⟩, rfl⟩, hs⟩

/-- A count that a check refuses cannot be read without the check either, as each item uses a
byte. -/
theorem agrees_refill {checked checked' : Bool} {item item' : Reader α} {L : Nat}
    (build : List α → Value) (hle : checked' = true → checked = true)
    (hstyle : style = .expanded → checked = true → checked' = true)
    (h : item.Agrees style item') (ht : item.Tracks L L item)
    (hu : checked = true → item.Uses 1) (v v' : Value) :
    Agrees style (refill checked item build) (refill checked' item' build) v v' where
  ok bs k w hk := by
    obtain ⟨count, n, as, hn, hc, has, rfl⟩ := refill_eq_ok hk
    exact refill_of_pass hn (fun hch => hc (hle hch)) (h.collect_ok has)
  error bs e w he := by
    rcases refill_inv he with ⟨e', hn, he', rfl⟩ | ⟨count, n, hn, hc, hlt, he', rfl⟩ |
      ⟨count, n, as, hn, hc, has, rfl⟩
    · cases he'
      exact ⟨e, v', by simp only [refill, hn], .inl rfl⟩
    · cases he'
      by_cases hc' : checked' = true
      · refine ⟨.truncated, v', refill_of_refuse hn fun hpass => ?_, .inl rfl⟩
        exact absurd (hpass hc') (Nat.not_le.2 hlt)
      · rcases has : item'.collect count.toNat (bs.drop n) n #[] with ⟨e' | k, as⟩
        · have hgeneric : style = .generic := by
            cases style with
            | expanded => exact absurd (hstyle rfl hc) hc'
            | generic => rfl
          exact ⟨e', build as.toList, refill_of_pass hn (fun hch => absurd hch hc') has,
            .inr ⟨hgeneric, rfl⟩⟩
        · rcases hr : item.collect count.toNat (bs.drop n) n #[] with ⟨e' | k', as'⟩
          · obtain ⟨e'', as'', has', -⟩ := h.collect_error hr
            cases has.symm.trans has'
          · -- that many items would have used more bytes than there are
            have := (hu hc).collect hr
            have := ht.collect_within hr
            omega
    · obtain ⟨e', as', has', hs⟩ := h.collect_error has
      exact ⟨e', build as'.toList, refill_of_pass hn (fun hch => hc (hle hch)) has', hs⟩

theorem Agrees.slots_ok {d d' : Decoder} {vs vs' ws : List Value}
    (h : List.Forall₂ (Agrees style d d') vs vs') {bs : List UInt8} {n : Nat}
    (hn : decodeSlots (vs.map fun _ => d) vs bs = (.ok n, ws)) :
    decodeSlots (vs'.map fun _ => d') vs' bs = (.ok n, ws) := by
  induction h generalizing bs n ws with
  | nil => exact hn
  | cons hv _ ih =>
    obtain ⟨n, m, w, ws', hw, hws, hk, hw'⟩ := decodeSlots_cons_eq_ok.1 hn
    exact decodeSlots_cons_eq_ok.2 ⟨n, m, w, ws', hv.ok hw, ih hws, hk, hw'⟩

theorem Agrees.slots_error {d d' : Decoder} {vs vs' ws : List Value}
    (h : List.Forall₂ (Agrees style d d') vs vs') {bs : List UInt8} {e : Fault}
    (he : decodeSlots (vs.map fun _ => d) vs bs = (.error e, ws)) :
    ∃ e' ws', decodeSlots (vs'.map fun _ => d') vs' bs = (.error e', ws') ∧
      e.StandsFor style e' := by
  induction h generalizing bs e ws with
  | nil => cases he
  | @cons v v' vs vs' hv _ ih =>
    rcases decodeSlots_cons_eq_error.1 he with ⟨w, hw, -⟩ | ⟨n, w, ws', hw, hws, -⟩
    · obtain ⟨e', w', he', hs⟩ := hv.error hw
      exact ⟨e', w' :: vs', decodeSlots_cons_eq_error.2 (.inl ⟨w', he', rfl⟩), hs⟩
    · obtain ⟨e', us, he', hs⟩ := ih hws
      exact ⟨e', w :: us, decodeSlots_cons_eq_error.2 (.inr ⟨n, w, us, hv.ok hw, he', rfl⟩), hs⟩

/-- Arrays of one length agree if their items do, each in its place. -/
theorem agrees_items {d d' : Decoder} {vs vs' : List Value}
    (h : List.Forall₂ (Agrees style d d') vs vs') :
    Agrees style (inPlace Value.items? .items fun vs => vs.map fun _ => d)
      (inPlace Value.items? .items fun vs => vs.map fun _ => d') (.items vs) (.items vs') where
  ok bs n w hn := by
    rcases inPlace_inv hn with ⟨us, ws, hus, hws, rfl⟩ | ⟨hnone, -⟩
    · cases hus
      exact inPlace_of_parts rfl (Agrees.slots_ok h hws)
    · cases hnone
  error bs e w he := by
    rcases inPlace_inv he with ⟨us, ws, hus, hws, rfl⟩ | ⟨hnone, -⟩
    · cases hus
      obtain ⟨e', ws', he', hs⟩ := Agrees.slots_error h hws
      exact ⟨e', _, inPlace_of_parts rfl he', hs⟩
    · cases hnone

end Decoder

end Agrees

/-! ### Plain shapes -/

/-- The shape is spelled out down to its scalars, and nothing is cast. -/
def Shape.plain : Shape → Bool
  | scalar _ cast => cast.isNone
  | option s | array _ s | seq s => s.plain
  | map _ key value => key.plain && value.plain
  | _ => false

variable {Γ : Schema}

theorem Shape.fits_blank {s : Shape} (hs : s.plain = true) : Γ.Fits s (Γ.blank s) := by
  induction s with
  | scalar s cast =>
    obtain rfl := Option.isNone_iff_eq_none.1 hs
    exact .scalar s.has_blank
  | option s ih => exact .absent
  | array size s ih =>
    refine .array List.length_replicate fun v hv => ?_
    obtain ⟨-, rfl⟩ := List.mem_replicate.1 hv
    exact ih hs
  | seq s ih => exact .seq (by decide) (by simp)
  | map keys key value ihk ihv => exact .map (by decide) (by simp) (by simp) (by simp)
  | converted _ _ | delegate _ _ | ref _ | staged _ _ => cases hs

/-- Expanded code with one receiver agrees with code of any style with another. -/
theorem Shape.decode_agrees {named named' : String → Decoder} {L : Nat}
    (ht : ∀ name, (named name).Tracks L L (named name)) {s : Shape} (hs : s.plain = true)
    (style : Style) {r r' : Value} (hr : Γ.Fits s r) (hr' : Γ.Fits s r') :
    Decoder.Agrees style (s.decode Γ named .expanded) (s.decode Γ named' style) r r' := by
  induction s generalizing r r' with
  | scalar s cast => exact Decoder.agrees_ofReader (Reader.agrees_refl _) r r'
  | option s ih =>
    refine Decoder.agrees_ofReader ((Reader.agrees_refl _).andThen fun presence => ?_) r r'
    split_ifs
    · exact Reader.agrees_refl _
    · exact (ih hs (fits_blank hs) (fits_blank hs)).fresh.map _
  | array size s ih =>
    cases hr with
    | @array _ _ vs hl hvs =>
      cases hr' with
      | @array _ _ vs' hl' hvs' =>
        refine Decoder.agrees_items (List.forall₂_iff_zip.2 ⟨hl.trans hl'.symm, fun hm => ?_⟩)
        exact ih hs (hvs _ (List.of_mem_zip hm).1) (hvs' _ (List.of_mem_zip hm).2)
  | seq s ih =>
    rw [decode_seq, decode_seq]
    exact Decoder.agrees_refill _ (fun hb => (Bool.and_eq_true_iff.1 hb).2)
      (fun hx hb => by simpa [hx] using hb) (ih hs (fits_blank hs) (fits_blank hs)).fresh
      ((decode_tracks ht .expanded s).fresh _)
      (fun hb => (uses_decode Γ named .expanded hb).fresh _) r r'
  | map keys key value ihk ihv =>
    obtain ⟨hk, hv⟩ := Bool.and_eq_true_iff.1 hs
    have htracks (s : Shape) :
        (s.decode Γ named .expanded).Tracks L L (s.decode Γ named .expanded) :=
      decode_tracks ht .expanded s
    refine Decoder.agrees_refill _ (fun hb => (Bool.and_eq_true_iff.1 hb).2)
      (fun hx hb => by simpa [hx] using hb) ?_
      (((htracks key).fresh _).andThen fun k => ((htracks value).fresh _).map _)
      (uses_entry Γ named .expanded) r r'
    exact (ihk hk (fits_blank hk) (fits_blank hk)).fresh.andThen fun k =>
      (ihv hv (fits_blank hv) (fits_blank hv)).fresh.map _
  | converted _ _ | delegate _ _ | ref _ | staged _ _ => cases hs

/-! ### Equality -/

/-- Values of a plain shape count as equal in one style if they do in the other. -/
theorem Shape.equals_plain {named named' : String → Value → Value → Bool} {s : Shape}
    (hs : s.plain = true) (style style' : Style) (a b : Value) :
    s.equals named style a b = s.equals named' style' a b := by
  induction s generalizing a b with
  | scalar s cast => cases a <;> cases b <;> rfl
  | option s ih => cases a <;> cases b <;> simp [equals, ih hs]
  | array size s ih | seq s ih =>
    have hsame : s.equals named style = s.equals named' style' := funext₂ (ih hs)
    cases a <;> cases b <;> simp [equals, Style.sameItems_eq, hsame]
  | map keys key value ihk ihv =>
    have hsame : value.equals named style = value.equals named' style' :=
      funext₂ (ihv (Bool.and_eq_true_iff.1 hs).2)
    cases a <;> cases b <;> simp [equals, hsame]
  | converted _ _ | delegate _ _ | ref _ | staged _ _ => cases hs

/-! ### Slots, delegates and records of one staged slot -/

namespace Schema

variable {s : Shape} {name : String} {label : Label}

theorem encode_alias (hf : Γ.find? name = some (.record [⟨label, .staged s, false, false⟩]))
    (style : Style) (v : Value) :
    Γ.encode style (.ref name) (.record [v]) = Γ.encode .expanded s v :=
  (encode_record style hf [v]).trans (List.append_nil _)

theorem equals_alias (hf : Γ.find? name = some (.record [⟨label, .staged s, false, false⟩]))
    (hs : s.plain = true) (style : Style) (a b : Value) :
    Γ.equals style (.ref name) (.record [a]) (.record [b]) = Γ.equals .expanded s a b := by
  rw [equals, Shape.equals, equalNamed, hf]
  simp only [Decl.equals, equalSlots, Shape.equals, Bool.false_or, Bool.and_true]
  exact Shape.equals_plain hs .expanded .expanded a b

/-- A record of one staged slot is decoded as its slot is. -/
theorem decode_alias (hf : Γ.find? name = some (.record [⟨label, .staged s, false, false⟩]))
    (style : Style) (r : Value) (bs : List UInt8) :
    ∃ budget result w,
      (Shape.staged s).decode Γ (Γ.decodeNamed bs.length budget) .expanded r bs = ⟨result, w⟩ ∧
      Γ.decode style (.ref name) (.record [r]) bs = ⟨result, .record [w]⟩ := by
  obtain ⟨budget, hbudget⟩ : ∃ budget, Γ.decls.length = budget + 1 := by
    cases hd : Γ.decls with
    | nil => simp [find?, hd] at hf
    | cons d ds => exact ⟨ds.length, rfl⟩
  rcases h : (Shape.staged s).decode Γ (Γ.decodeNamed bs.length budget) .expanded r bs with
    ⟨result, w⟩
  refine ⟨budget, result, w, h, ?_⟩
  rw [decode, Shape.decode, hbudget, decodeNamed_of_find (Nat.le_refl _) hf, Decl.decode]
  refine Decoder.inPlace_of_parts rfl ?_
  cases result with
  | error e => exact decodeSlots_cons_eq_error.2 (.inl ⟨w, h, rfl⟩)
  | ok n => exact decodeSlots_cons_eq_ok.2 ⟨n, 0, w, [], h, rfl, rfl, rfl⟩

/-- The code of a slot agrees with code of any style for the same shape, whatever the receivers. -/
theorem decode_agrees (hs : s.plain = true) (style : Style) {r r' : Value} (hr : Γ.Fits s r)
    (hr' : Γ.Fits s r') (L budget budget' : Nat) :
    Decoder.Agrees style (s.decode Γ (Γ.decodeNamed L budget) .expanded)
      (s.decode Γ (Γ.decodeNamed L budget') style) r r' :=
  Shape.decode_agrees (Γ.decodeNamed_tracks L L budget) hs style hr hr'

/-- **Expanded and generic code agree** on a plain shape: the code of a slot, the code behind a
delegate and that of a record of one staged slot append the same bytes to any buffer, take the same
inputs to the same values with the same counts, and make the same values equal.  Where one of them
fails so do the others.  The record fails as the slot does, and the delegate too, except that the
slot may already have found the input too short. -/
theorem plain_agree (hs : s.plain = true)
    (hf : Γ.find? name = some (.record [⟨label, .staged s, false, false⟩])) (style : Style) :
    (∀ v b, Γ.Fits s v →
      Γ.encodeOnto style (.delegate s) v b = Γ.encodeOnto .expanded s v b ∧
      Γ.encodeOnto style (.ref name) (.record [v]) b = Γ.encodeOnto .expanded s v b) ∧
    (∀ r r' bs, Γ.Fits s r → Γ.Fits s r' →
      (∀ n w, Γ.decode .expanded s r bs = ⟨.ok n, w⟩ ↔
        Γ.decode style (.delegate s) r' bs = ⟨.ok n, w⟩) ∧
      (∀ e e', (Γ.decode .expanded s r bs).result = .error e →
        (Γ.decode style (.delegate s) r' bs).result = .error e' → e = e' ∨ e = .truncated) ∧
      ∃ u, Γ.decode style (.ref name) (.record [r']) bs =
          ⟨(Γ.decode .expanded s r bs).result, .record [u]⟩ ∧
        ∀ n w, Γ.decode .expanded s r bs = ⟨.ok n, w⟩ → u = w) ∧
    (∀ a b, Γ.equals style (.delegate s) a b = Γ.equals .expanded s a b ∧
      Γ.equals style (.ref name) (.record [a]) (.record [b]) = Γ.equals .expanded s a b) := by
  refine ⟨fun v b hv => ?_, fun r r' bs hr hr' => ?_,
    fun a b => ⟨Shape.equals_plain hs .generic .expanded a b, equals_alias hf hs style a b⟩⟩
  · have hdelegate : Γ.encode style (.delegate s) v = Γ.encode .expanded s v :=
      (hv.encode_style .expanded).symm
    rw [encodeOnto_eq, encodeOnto_eq, encodeOnto_eq, hdelegate, encode_alias hf style v]
    exact ⟨rfl, rfl⟩
  have hgeneric := decode_agrees hs .generic hr hr' bs.length Γ.decls.length Γ.decls.length
  obtain ⟨budget, result, u, hu, halias⟩ := decode_alias hf style r' bs
  have hstaged := (decode_agrees hs .expanded hr (Shape.fits_blank hs) bs.length Γ.decls.length
    budget).staged r'
  refine ⟨fun n w => hgeneric.ok_iff, fun e e' he he' => ?_, u, ?_, fun n w hw => ?_⟩
  · exact (hgeneric.standsFor he he').imp_right And.right
  · have hresult : result = (Γ.decode .expanded s r bs).result :=
      (congrArg Outcome.result hu).symm.trans (hstaged.result_eq bs)
    rw [halias, hresult]
  · exact congrArg Outcome.receiver (hu.symm.trans (hstaged.ok hw))

/-- Records that stand for a sequence of texts. -/
def texts : Schema :=
  { decls := [("Texts", .record [⟨.index 0, .staged (.seq (.scalar .text none)), false, false⟩])] }

/-- Five texts are announced in front of two bytes, and these hold a text that is not UTF-8.  The
slot and the record refuse the count; the delegate comes to the text, and refuses that. -/
theorem plain_agree_texts :
    texts.Fits (.seq (.scalar .text none)) (.items [.datum (.text "é")]) ∧
    (∀ b, texts.encodeOnto .generic (.ref "Texts") (.record [.items [.datum (.text "é")]]) b =
      texts.encodeOnto .expanded (.seq (.scalar .text none)) (.items [.datum (.text "é")]) b) ∧
    texts.decode .generic (.delegate (.seq (.scalar .text none))) (.items []) [5, 1, 255] =
      ⟨.error .notUtf8, .items []⟩ ∧
    ∃ u, texts.decode .generic (.ref "Texts") (.record [.items []]) [5, 1, 255] =
      ⟨.error .truncated, .record [u]⟩ := by
  have hv : texts.Fits (.seq (.scalar .text none)) (.items [.datum (.text "é")]) := by
    refine .seq (by decide) fun v hv => ?_
    cases List.mem_singleton.1 hv
    exact .scalar (show "é".utf8ByteSize < Width.w64.modulus by decide)
  have hr : texts.Fits (.seq (.scalar .text none)) (.items []) := .seq (by decide) (by simp)
  have hslot : texts.decode .expanded (.seq (.scalar .text none)) (.items []) [5, 1, 255] =
      ⟨.error .truncated, .items []⟩ := by cbv
  obtain ⟨hbytes, hdecode, -⟩ := plain_agree (Γ := texts) (s := .seq (.scalar .text none)) rfl
    (show texts.find? "Texts" = some (.record [⟨.index 0, _, false, false⟩]) from rfl) .generic
  obtain ⟨-, -, u, hu, -⟩ := hdecode _ _ [5, 1, 255] hr hr
  rw [hslot] at hu
  exact ⟨hv, fun b => (hbytes _ b hv).2, by cbv, u, hu⟩

end Schema

end Marshal
