import Mathlib.Data.List.Chain
import Mathlib.Logic.Relation
import Marshal.Catalogue.Basic
import Marshal.Proofs.Unfolding

/-!
# Recursive types

A declared type may come back to itself.  It is `Guarded` if it passes an optional value, a
sequence, a map or a holder on the way: boxes, aliases, arrays and the slots of other records are
no guard.  What is behind a guard is decoded behind a byte, so the decoder of a type depends on
answers for shorter inputs, and on answers for the same input only where a name is referred to
without a guard (`Schema.unfold_eqBelow_succ`).

* A decoder that is called for its own type, directly or through other types, is called on a
  shorter input (`Schema.length_le_of_makes`).
* References without a guard are never more than there are declared types
  (`Schema.Guarded.leavesWithin`), which is the budget of the decoder.  So the budget is never used
  up, and the decoders are the only ones that decode every type as it is declared.

`Schema.Guarded.decode_total` says both, and bounds the chains that are decoded from an input.
-/

namespace Marshal

open Relation

/-! ### References without a guard -/

/-- The names that a shape refers to other than through an optional value, a sequence or a map.
Boxes, aliases and arrays are no guard. -/
def Shape.unguarded : Shape → List String
  | ref name => [name]
  | delegate s | staged s | array _ s => s.unguarded
  | scalar _ _ | converted _ _ | option _ | seq _ | map _ _ _ => []

/-- The names that the slots of a record refer to without a guard.  A holder guards its members. -/
def Decl.unguarded : Decl → List String
  | record slots =>
    (slots.filter fun slot => !slot.offWire).flatMap fun slot => slot.shape.unguarded
  | holder _ => []

namespace Schema

/-- A declared type refers to a name without a guard. -/
def Exposes (Γ : Schema) (name other : String) : Prop :=
  ∃ d, Γ.find? name = some d ∧ other ∈ d.unguarded

/-- Wherever a declared type comes back to itself, it passes a guard on the way. -/
def Guarded (Γ : Schema) : Prop := ∀ name, ¬ TransGen Γ.Exposes name name

/-- The decoder of a declared type, given those of all declared types that it may ask for.  There is
no value of a type that is not declared. -/
def unfold (Γ : Schema) (named : String → Decoder) (name : String) : Decoder :=
  match Γ.find? name with
  | some d => d.decode Γ named
  | none => fun v _ => ⟨.error .truncated, v⟩

end Schema

theorem Schema.unfold_of_find {Γ : Schema} {name : String} {d : Decl}
    (h : Γ.find? name = some d) (named : String → Decoder) :
    Γ.unfold named name = d.decode Γ named := by
  rw [Schema.unfold, h]

/-! ### What a decoder depends on -/

section Congruence

variable {Γ : Schema} {named named' : String → Decoder} {m : Nat}
  (hlow : ∀ name, (named name).EqBelow m (named' name))

include hlow

/-- Up to `m` bytes, the decoder of a shape depends on decoders below `m` bytes, and on those of the
unguarded names. -/
theorem Shape.decode_eqBelow_succ {s : Shape}
    (h : ∀ name ∈ s.unguarded, (named name).EqBelow (m + 1) (named' name)) (style : Style) :
    (s.decode Γ named style).EqBelow (m + 1) (s.decode Γ named' style) := by
  induction s generalizing style with
  | scalar s cast => exact fun _ _ _ => rfl
  | converted c w => exact fun _ _ _ => rfl
  | delegate s ih => exact ih h .generic
  | ref name => exact h name List.mem_cons_self
  | staged s ih => exact Decoder.eqBelow_ofReader ((ih h style).fresh _)
  | option s =>
    refine Decoder.eqBelow_ofReader (Reader.EqBelow.byte_andThen fun b => ?_)
    split_ifs
    · exact Reader.eqBelow_refl _
    · exact ((Shape.decode_eqBelow hlow style s).fresh _).map _
  | array size s ih => exact (ih h style).items
  | seq s =>
    rw [Shape.decode_seq, Shape.decode_seq]
    exact Decoder.eqBelow_refill _ _ ((Shape.decode_eqBelow hlow style s).fresh _)
  | map keys key value =>
    exact Decoder.eqBelow_refill _ _ (((Shape.decode_eqBelow hlow style key).fresh _).entry
      ((Shape.decode_eqBelow hlow style value).fresh _))

theorem Decl.decode_eqBelow_succ {d : Decl}
    (h : ∀ name ∈ d.unguarded, (named name).EqBelow (m + 1) (named' name)) :
    (d.decode Γ named).EqBelow (m + 1) (d.decode Γ named') := by
  cases d with
  | holder u => exact Decoder.eqBelow_ofReader (Members.readHeld_eqBelow hlow u)
  | record slots =>
    intro v bs hbs
    rw [Decl.decode, Decl.decode]
    rcases hv : Value.slots? v with _ | vs
    · rw [Decoder.inPlace_of_none hv, Decoder.inPlace_of_none hv]
    · refine Decoder.inPlace_congr slots hv rfl rfl (fun slot u hu cs hcs => ?_) hbs
      have hslot := (List.of_mem_zip hu).1
      cases ho : slot.offWire with
      | true => simp only [Slot.decode, ho, ↓reduceIte]
      | false =>
        simp only [Slot.decode, ho, Bool.false_eq_true, ↓reduceIte]
        refine Shape.decode_eqBelow_succ hlow (fun name hname => h name ?_) .expanded hcs
        exact List.mem_flatMap.2 ⟨slot, List.mem_filter.2 ⟨hslot, by simp [ho]⟩, hname⟩

theorem Schema.unfold_eqBelow_succ {name : String}
    (h : ∀ other, Γ.Exposes name other → (named other).EqBelow (m + 1) (named' other)) :
    (Γ.unfold named name).EqBelow (m + 1) (Γ.unfold named' name) := by
  unfold Schema.unfold
  cases hd : Γ.find? name with
  | none => exact fun _ _ _ => rfl
  | some d => exact Decl.decode_eqBelow_succ hlow fun other ho => h other ⟨d, hd, ho⟩

end Congruence

/-! ### Calls -/

/-- A value of a declared type is to be decoded. -/
structure Call where
  name : String
  receiver : Value
  input : List UInt8

/-- What a family of decoders answers to a call. -/
def Call.answer (named : String → Decoder) (c : Call) : Outcome := named c.name c.receiver c.input

namespace Schema

/-- To answer a call, the decoder of its type makes the call `c'`: its answer depends on that to
`c'`, as there are decoders that differ in nothing else and with which it answers differently. -/
def Makes (Γ : Schema) (c c' : Call) : Prop :=
  ∃ named named' : String → Decoder, (∀ other ≠ c', other.answer named = other.answer named') ∧
    c.answer (Γ.unfold named) ≠ c.answer (Γ.unfold named')

variable {Γ : Schema}

theorem Makes.length_le {c c' : Call} (h : Γ.Makes c c') :
    c'.input.length ≤ c.input.length := by
  obtain ⟨named, named', hbut, hne⟩ := h
  by_contra hlt
  have heq : ∀ name, (named name).EqBelow (c.input.length + 1) (named' name) := by
    intro name v bs hbs
    refine hbut ⟨name, v, bs⟩ ?_
    rintro rfl
    exact hlt (Nat.le_of_lt_succ hbs)
  exact hne (unfold_eqBelow_succ (fun name => (heq name).mono (Nat.le_succ _))
    (fun other _ => heq other) (Nat.lt_succ_self _))

/-- Without a byte used, calls go to names without a guard. -/
theorem Makes.exposes {c c' : Call} (h : Γ.Makes c c')
    (hlen : c'.input.length = c.input.length) : Γ.Exposes c.name c'.name := by
  obtain ⟨named, named', hbut, hne⟩ := h
  by_contra hno
  refine hne (unfold_eqBelow_succ (m := c.input.length) (fun name v bs hbs => ?_)
    (fun other ho v bs _ => ?_) (Nat.lt_succ_self _))
  · refine hbut ⟨name, v, bs⟩ ?_
    rintro rfl
    exact Nat.ne_of_lt hbs hlen
  · refine hbut ⟨other, v, bs⟩ ?_
    rintro rfl
    exact hno ho

theorem length_le_of_makes {c c' : Call} (h : TransGen Γ.Makes c c') :
    c'.input.length ≤ c.input.length ∧
      (c'.input.length = c.input.length → TransGen Γ.Exposes c.name c'.name) := by
  induction h with
  | single h => exact ⟨h.length_le, fun hlen => .single (h.exposes hlen)⟩
  | @tail b c'' _ h ih =>
    refine ⟨h.length_le.trans ih.1, fun hlen => ?_⟩
    have hmid : b.input.length = c.input.length := by
      have := h.length_le
      omega
    exact (ih.2 hmid).tail (h.exposes (hlen.trans hmid.symm))

/-! ### The budget -/

/-- A schema is guarded if a rank of the names goes down along references without a guard. -/
theorem guarded_of_rank (rank : String → Nat)
    (h : ∀ e ∈ Γ.decls, ∀ other ∈ e.2.unguarded, rank other < rank e.1) : Γ.Guarded := by
  have hstep : ∀ name other, Γ.Exposes name other → rank other < rank name := by
    rintro name other ⟨d, hd, hother⟩
    obtain ⟨ds, ds', hds, -⟩ := List.lookup_eq_some_iff.1 hd
    exact h (name, d) (by simp [hds]) other hother
  have hdown : ∀ name other, TransGen Γ.Exposes name other → rank other < rank name := by
    intro name other h
    induction h with
    | single h => exact hstep _ _ h
    | tail _ h ih => exact (hstep _ _ h).trans ih
  exact fun name hname => lt_irrefl _ (hdown name name hname)

/-- Within `k` references without a guard, what a name leads to is no longer declared. -/
def LeavesWithin (Γ : Schema) : (k : Nat) → String → Prop
  | 0, name => Γ.find? name = none
  | k + 1, name => ∀ other, Γ.Exposes name other → Γ.LeavesWithin k other

/-- A name that does not leave within `k` references starts a chain of that many declared names. -/
theorem exists_chain_of_not_leavesWithin {k : Nat} {name : String} (h : ¬ Γ.LeavesWithin k name) :
    ∃ l, (name :: l).length = k + 1 ∧ (name :: l).IsChain Γ.Exposes ∧
      ∀ x ∈ name :: l, x ∈ Γ.decls.map Prod.fst := by
  have hdeclared : ∀ x, Γ.find? x ≠ none → x ∈ Γ.decls.map Prod.fst := by
    intro x hx
    obtain ⟨d, hd⟩ := Option.ne_none_iff_exists'.1 hx
    obtain ⟨ds, ds', hds, -⟩ := List.lookup_eq_some_iff.1 hd
    simp [hds]
  induction k generalizing name with
  | zero => exact ⟨[], rfl, .singleton _, List.forall_mem_singleton.2 (hdeclared name h)⟩
  | succ k ih =>
    simp only [LeavesWithin, not_forall] at h
    obtain ⟨other, hother, h⟩ := h
    obtain ⟨l, hl, hchain, hmem⟩ := ih h
    obtain ⟨d, hd, -⟩ := id hother
    refine ⟨other :: l, by simpa using hl, .cons_cons hother hchain, ?_⟩
    exact List.forall_mem_cons.2 ⟨hdeclared name (by simp [hd]), hmem⟩

/-- Names in a chain without a guard are distinct, so there are no more of them than declared. -/
theorem Guarded.leavesWithin (hΓ : Γ.Guarded) (name : String) :
    Γ.LeavesWithin Γ.decls.length name := by
  by_contra h
  obtain ⟨l, hl, hchain, hmem⟩ := exists_chain_of_not_leavesWithin h
  have hpairwise : (name :: l).Pairwise (TransGen Γ.Exposes) :=
    (hchain.imp fun _ _ => TransGen.single).pairwise
  have hnodup : (name :: l).Nodup := by
    refine hpairwise.imp ?_
    rintro a _ hab rfl
    exact hΓ a hab
  have hle := (hnodup.subperm hmem).length_le
  rw [hl, List.length_map] at hle
  omega

/-- Two families of decoders that answer as they unfold answer alike. -/
theorem Guarded.eqBelow_of_unfold (hΓ : Γ.Guarded) {named named' : String → Decoder}
    (h : ∀ name, named name = Γ.unfold named name)
    (h' : ∀ name, named' name = Γ.unfold named' name) (m : Nat) (name : String) :
    (named name).EqBelow m (named' name) := by
  induction m generalizing name with
  | zero => exact fun _ _ hbs => absurd hbs (Nat.not_lt_zero _)
  | succ m ih =>
    -- without a byte used, the references end
    have hleaves := hΓ.leavesWithin name
    generalize Γ.decls.length = k at hleaves
    induction k generalizing name with
    | zero =>
      intro v bs _
      rw [h, h', unfold, unfold, hleaves]
    | succ k ihk =>
      rw [h, h']
      exact unfold_eqBelow_succ ih fun other ho => ihk other (hleaves other ho)

/-- Two budgets within which the references without a guard end give the same decoder. -/
theorem decodeNamed_eqBelow {limit k l : Nat} {name : String} (hk : Γ.LeavesWithin k name)
    (hl : Γ.LeavesWithin l name) :
    (Γ.decodeNamed limit k name).EqBelow (limit + 1) (Γ.decodeNamed limit l name) := by
  induction k generalizing l name with
  | zero =>
    intro v bs hbs
    rcases Nat.lt_or_eq_of_le (Nat.le_of_lt_succ hbs) with hlt | heq
    · rw [decodeNamed_of_lt hlt, decodeNamed_of_lt hlt]
    · rw [decodeNamed_of_fail heq.ge (.inr hk), decodeNamed_of_fail heq.ge (.inr hk)]
  | succ k ih =>
    intro v bs hbs
    rcases Nat.lt_or_eq_of_le (Nat.le_of_lt_succ hbs) with hlt | heq
    · rw [decodeNamed_of_lt hlt, decodeNamed_of_lt hlt]
    cases hd : Γ.find? name with
    | none => rw [decodeNamed_of_fail heq.ge (.inr hd), decodeNamed_of_fail heq.ge (.inr hd)]
    | some d =>
      cases l with
      | zero => cases hd.symm.trans hl
      | succ l =>
        rw [decodeNamed_of_find heq.ge hd, decodeNamed_of_find heq.ge hd]
        refine Decl.decode_eqBelow_succ (fun other u cs hcs => ?_) (fun other ho => ?_) hbs
        · rw [decodeNamed_of_lt hcs, decodeNamed_of_lt hcs]
        · exact ih (hk other ⟨d, hd, ho⟩) (hl other ⟨d, hd, ho⟩)

/-- A declared type is decoded as it unfolds, whatever the budget. -/
theorem Guarded.decode_ref (hΓ : Γ.Guarded) (style : Style) (name : String) :
    Γ.decode style (.ref name) = Γ.unfold (fun other => Γ.decode .generic (.ref other)) name := by
  funext v bs
  show Γ.decodeNamed bs.length Γ.decls.length name v bs = _
  cases hd : Γ.find? name with
  | none =>
    rw [decodeNamed_of_fail (Nat.le_refl _) (.inr hd), Schema.unfold, hd]
  | some d =>
    obtain ⟨n, hn⟩ := length_decls_of_find hd
    have hleaves : Γ.LeavesWithin (n + 1) name := hn ▸ hΓ.leavesWithin name
    rw [hn, decodeNamed_of_find (Nat.le_refl _) hd, Schema.unfold, hd]
    refine Decl.decode_eqBelow_succ (fun other u cs hcs => ?_) (fun other ho u cs hcs => ?_)
      (Nat.lt_succ_self _)
    · exact decodeNamed_of_lt hcs
    · rw [decodeNamed_eqBelow (hleaves other ⟨d, hd, ho⟩) (hΓ.leavesWithin other) hcs]
      exact decodeNamed_full (Nat.le_of_lt_succ hcs)

/-- Every shape is decoded with the decoders of the declared types by themselves. -/
theorem decode_eq_named (style : Style) (s : Shape) :
    Γ.decode style s = s.decode Γ (fun name => Γ.decode .generic (.ref name)) style := by
  funext v bs
  refine Shape.decode_eqBelow (fun name u cs hcs => ?_) style s (Nat.lt_succ_self bs.length)
  exact decodeNamed_full (Nat.le_of_lt_succ hcs)

end Schema

/-! ### Chains of nodes -/

/-- A number and perhaps, in a box, the next node. -/
def Decl.node : Decl :=
  .record [{ label := .name "value", shape := .scalar (.int ⟨false, .w32⟩) none },
    { label := .name "next", shape := .option (.delegate (.delegate (.ref "Node"))) }]

open Catalogue in
/-- It is what a record with these two fields declares. -/
example :
    let fields := [field "value" u32, field "next" (opt (box (.named "Node")))]
    (Package.ofItems? {} [record "Node" fields]).bind (·.schema.find? "Node") = some Decl.node :=
  rfl

/-- The value is a chain of `k` nodes. -/
inductive NodeChain : (k : Nat) → Value → Prop where
  | last (value : Value) : NodeChain 1 (.record [value, .absent])
  | link (value : Value) {k : Nat} {next : Value} (h : NodeChain k next) :
      NodeChain (k + 1) (.record [value, .present next])

namespace Schema

variable {Γ : Schema}

theorem blank_node (hfit : Γ.DefaultsFit) (hnode : Γ.find? "Node" = some Decl.node) :
    ∃ value next, Γ.blank (.ref "Node") = .record [value, next] := by
  obtain ⟨n, hn⟩ := length_decls_of_find hnode
  rw [blank, Shape.blank, hn]
  cases hdefault : Γ.defaults.lookup "Node" with
  | none => exact ⟨_, _, blankNamed_of_find hdefault hnode⟩
  | some v =>
    rw [blankNamed_of_default hdefault]
    cases hfit "Node" v hdefault with
    | record hf hl _ =>
      cases hnode.symm.trans hf
      obtain ⟨value, next, rfl⟩ := List.length_eq_two.1 hl.symm
      exact ⟨value, next, rfl⟩
    | empty hf | held hf _ _ _ => cases hnode.symm.trans hf

/-- Each node of a chain takes at least two bytes. -/
theorem Guarded.decode_node (hΓ : Γ.Guarded) (hfit : Γ.DefaultsFit)
    (hnode : Γ.find? "Node" = some Decl.node) {style : Style} {a b w : Value} {bs : List UInt8}
    {n : Nat}
    (h : Γ.decode style (.ref "Node") (.record [a, b]) bs = ⟨.ok n, w⟩) :
    ∃ k, NodeChain k w ∧ 2 * k ≤ n := by
  induction hlen : bs.length using Nat.strong_induction_on generalizing style a b w bs n with
  | _ len ih =>
    rw [hΓ.decode_ref, unfold_of_find hnode, Decl.node, Decl.decode] at h
    obtain ⟨_, _, ⟨⟩, hslots, rfl⟩ | ⟨⟨⟩, -⟩ := Decoder.inPlace_inv h
    obtain ⟨i, _, value, _, hvalue, hrest, rfl, rfl⟩ := decodeSlots_cons_eq_ok.1 hslots
    obtain ⟨j, _, next, _, hnext, ⟨⟩, rfl, rfl⟩ := decodeSlots_cons_eq_ok.1 hrest
    -- the number takes a byte, and so does the presence of the next node
    have hi : 1 ≤ i := Decoder.uses_ofReader ((Wire.uses_read _).map _) hvalue
    obtain ⟨presence, p, q, hpresence, hcontent, rfl⟩ :=
      Reader.andThen_eq_ok.1 (Decoder.ofReader_eq_ok.1 hnext)
    have hp : 1 ≤ p := Reader.uses_byte hpresence
    split_ifs at hcontent with hzero
    · cases hcontent
      exact ⟨1, .last value, by omega⟩
    · obtain ⟨inner, hinner, rfl⟩ := Reader.map_eq_ok.1 hcontent
      obtain ⟨value', next', hblank⟩ := blank_node hfit hnode
      have hdecode : Γ.decode .generic (.ref "Node") (Γ.blank (.ref "Node"))
          ((bs.drop i).drop p) = ⟨.ok q, inner⟩ := Decoder.fresh_eq_ok.1 hinner
      rw [hblank] at hdecode
      have hshorter : ((bs.drop i).drop p).length < len := by
        have hwithin := (Reader.tracks_byte 0 0).within hpresence
        rw [List.length_drop] at hwithin
        rw [List.length_drop, List.length_drop]
        omega
      obtain ⟨k, hk, hle⟩ := ih _ hshorter hdecode rfl
      exact ⟨k + 1, .link value hk, by omega⟩

/-- Where the next node is there, its decoder decides. -/
theorem unfold_node_error (hnode : Γ.find? "Node" = some Decl.node) {named : String → Decoder}
    {a b value w : Value} {bs cs : List UInt8} {i : Nat} {c : UInt8} {e : Fault}
    (hvalue : Scalar.read (.int ⟨false, .w32⟩) none bs = .ok (value, i))
    (hrest : bs.drop i = c :: cs) (hc : c ≠ 0)
    (h : named "Node" (Γ.blank (.ref "Node")) cs = ⟨.error e, w⟩) :
    Γ.unfold named "Node" (.record [a, b]) bs = ⟨.error e, .record [value, b]⟩ := by
  have hnext : (Shape.option (.delegate (.delegate (.ref "Node")))).decode Γ named .expanded b
      (c :: cs) = ⟨.error e, b⟩ := by
    refine Decoder.ofReader_eq_error.2 ⟨Reader.andThen_eq_error.2 (.inr ⟨c, 1, rfl, ?_⟩), rfl⟩
    rw [if_neg hc, Reader.map_eq_error]
    exact Decoder.fresh_eq_error.2 ⟨w, h⟩
  have hslots : decodeSlots
      [(Shape.scalar (.int ⟨false, .w32⟩) none).decode Γ named .expanded,
        (Shape.option (.delegate (.delegate (.ref "Node")))).decode Γ named .expanded] [a, b] bs =
      (.error e, [value, b]) := by
    refine decodeSlots_cons_eq_error.2 (.inr ⟨i, value, [b], ?_, ?_, rfl⟩)
    · exact Decoder.ofReader_eq_ok.2 hvalue
    · rw [hrest]
      exact decodeSlots_cons_eq_error.2 (.inl ⟨b, hnext, rfl⟩)
  rw [unfold_of_find hnode, Decl.node, Decl.decode]
  exact Decoder.inPlace_of_parts rfl hslots

/-- Where the next node is there, the decoder of nodes calls itself for it. -/
theorem makes_next (hnode : Γ.find? "Node" = some Decl.node) {a b value : Value}
    {bs cs : List UInt8} {i : Nat} {c : UInt8}
    (hvalue : Scalar.read (.int ⟨false, .w32⟩) none bs = .ok (value, i))
    (hrest : bs.drop i = c :: cs) (hc : c ≠ 0) :
    Γ.Makes ⟨"Node", .record [a, b], bs⟩ ⟨"Node", Γ.blank (.ref "Node"), cs⟩ := by
  classical
  let next : Call := ⟨"Node", Γ.blank (.ref "Node"), cs⟩
  refine ⟨fun _ v _ => ⟨.error .truncated, v⟩, fun name v ds =>
    if (⟨name, v, ds⟩ : Call) = next then ⟨.error .outOfRange, v⟩ else ⟨.error .truncated, v⟩,
    fun other hother => (if_neg hother).symm, ?_⟩
  rw [Call.answer, Call.answer, unfold_node_error hnode hvalue hrest hc rfl,
    unfold_node_error hnode hvalue hrest hc (if_pos rfl)]
  simp

/-! ### Recursive types -/

/-- **Recursive types are decoded by recursion on the input.**  Let every declared type that comes
back to itself pass a guard on the way.

* Where the decoder of a type is called again for the same type, directly or through other types,
  the input is shorter.
* The decoders of the declared types are the only ones that decode each type as it is declared,
  given the others, on every input and with every receiver; and every shape is decoded with them.
* What is decoded as a node from `n` bytes is a chain of at most `n / 2` nodes, also if the blank
  node is another than usual. -/
theorem Guarded.decode_total (hΓ : Γ.Guarded) :
    (∀ c c' : Call, TransGen Γ.Makes c c' → c'.name = c.name →
      c'.input.length < c.input.length) ∧
    (∀ named : String → Decoder, (∀ name, named name = Γ.unfold named name) ↔
      ∀ name, named name = Γ.decode .generic (.ref name)) ∧
    (∀ style s, Γ.decode style s =
      s.decode Γ (fun name => Γ.decode .generic (.ref name)) style) ∧
    (Γ.DefaultsFit → Γ.find? "Node" = some Decl.node → ∀ style a b bs n w,
      Γ.decode style (.ref "Node") (.record [a, b]) bs = ⟨.ok n, w⟩ →
        ∃ k, NodeChain k w ∧ k ≤ n / 2) := by
  refine ⟨fun c c' h hname => ?_, fun named => ⟨fun h name => ?_, fun h => ?_⟩,
    fun style s => decode_eq_named style s, fun hfit hnode style a b bs n w h => ?_⟩
  · obtain ⟨hle, hexposes⟩ := length_le_of_makes h
    refine lt_of_le_of_ne hle fun hlen => hΓ c.name ?_
    exact hname ▸ hexposes hlen
  · funext v bs
    exact hΓ.eqBelow_of_unfold h (fun name => hΓ.decode_ref .generic name) _ name
      (Nat.lt_succ_self bs.length)
  · obtain rfl : named = fun name => Γ.decode .generic (.ref name) := funext h
    exact fun name => hΓ.decode_ref .generic name
  · obtain ⟨k, hk, hle⟩ := hΓ.decode_node hfit hnode h
    exact ⟨k, hk, by omega⟩

/-- Nodes, and trees that come back to themselves through a sequence only, behind a record, an array
of sides and an alias of a box. -/
def grove : Schema :=
  { decls := [("Node", Decl.node),
    ("Tree", .record [{ label := .name "kids", shape := .seq (.delegate (.ref "Pair")) }]),
    ("Pair", .record [{ label := .name "sides", shape := .array 2 (.delegate (.ref "Side")) }]),
    ("Side", .record
      [{ label := .index 0, shape := .staged (.delegate (.delegate (.ref "Tree"))) }])] }

theorem guarded_grove : grove.Guarded :=
  guarded_of_rank (fun name => ["Tree", "Side", "Pair"].idxOf name) (by decide)

/-- A chain of two nodes: the decoder calls itself once, on the last two bytes. -/
theorem decode_total_grove :
    TransGen grove.Makes ⟨"Node", grove.blank (.ref "Node"), [5, 1, 7, 0]⟩
      ⟨"Node", grove.blank (.ref "Node"), [7, 0]⟩ ∧
    [7, 0].length < [5, 1, 7, 0].length ∧
    (∀ name, grove.decode .generic (.ref name) =
      grove.unfold (fun other => grove.decode .generic (.ref other)) name) ∧
    ∃ k, NodeChain k (.record [.datum (.int 5), .present (.record [.datum (.int 7), .absent])]) ∧
      k ≤ 4 / 2 := by
  have hvalue : Scalar.read (.int ⟨false, .w32⟩) none [5, 1, 7, 0] =
      .ok (.datum (.int 5), 1) := by cbv
  have hmakes : grove.Makes ⟨"Node", grove.blank (.ref "Node"), [5, 1, 7, 0]⟩
      ⟨"Node", grove.blank (.ref "Node"), [7, 0]⟩ := makes_next rfl hvalue rfl (by decide)
  have hdecode : grove.decode .generic (.ref "Node") (.record [.datum (.int 0), .absent])
      [5, 1, 7, 0] =
      ⟨.ok 4, .record [.datum (.int 5), .present (.record [.datum (.int 7), .absent])]⟩ := by cbv
  obtain ⟨hshorter, hunique, -, hnode⟩ := Guarded.decode_total guarded_grove
  exact ⟨.single hmakes, hshorter _ _ (.single hmakes) rfl, (hunique _).2 fun _ => rfl,
    hnode (defaultsFit_of_nil rfl) rfl _ _ _ _ _ _ hdecode⟩

end Schema

end Marshal
