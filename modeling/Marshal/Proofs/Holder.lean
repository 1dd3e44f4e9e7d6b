import Marshal.Catalogue.Basic
import Marshal.Proofs.Members
import Marshal.Proofs.Encoding
import Marshal.Proofs.Unfolding

/-!
# Union holders

A holder is empty or holds a member of its union, and nothing that can be done to it changes that:
not making it, setting it, emptying it or decoding into it, whether that succeeds or fails
(`Schema.Reached.holds`).  So its tag is always that of a member, or `0` if it is empty, and what is
written for it is its tag and then the member.

Decoding looks at the tag first.  The tag `0` empties the holder, the tag of a member has the member
decoded afresh, and any other tag is refused.  A decoder that fails leaves the holder alone.

`Schema.HolderContract` lists these facts, and `Package.holder_contract` has them for each holder of
a package that is accepted.
-/

namespace Marshal

namespace Members

/-- A holder of the union: it is empty or holds a member. -/
inductive Holds (u : Members) : Value → Prop where
  | empty : Holds u Holder.empty
  | held {tag m} (v : Value) (hm : u.member? tag = some m) : Holds u (Holder.new (.member tag v))

variable {u : Members} {tag : Nat} {m : Member}

theorem tag_pos_of_member (h : u.member? tag = some m) : 0 < tag := by
  cases tag with
  | zero => cases h
  | succ i => exact Nat.succ_pos i

theorem tag_lt_size_of_member (h : u.member? tag = some m) : tag < u.size := by
  cases tag with
  | zero => cases h
  | succ i => exact Nat.succ_lt_succ (List.getElem?_eq_some_iff.1 h).1

theorem member_of_pos (h : 0 < tag) : u.member? tag = u[tag - 1]? := by
  cases tag with
  | zero => cases h
  | succ i => rfl

theorem member_of_length_lt (h : u.length < tag) : u.member? tag = none := by
  rw [member_of_pos (Nat.zero_lt_of_lt h)]
  exact List.getElem?_eq_none (by omega)

end Members

namespace Schema

/-- What making, setting, emptying and decoding lead to, in any order.  Decoding may fail. -/
inductive Reached (Γ : Schema) (name : String) (u : Members) : Value → Prop where
  | empty : Reached Γ name u Holder.empty
  | new {tag m} (v : Value) (hm : u.member? tag = some m) :
      Reached Γ name u (Holder.new (.member tag v))
  | set {h tag m} (hr : Reached Γ name u h) (v : Value) (hm : u.member? tag = some m) :
      Reached Γ name u (Holder.set h (.member tag v))
  | decode {h} (hr : Reached Γ name u h) (style : Style) (bs : List UInt8) :
      Reached Γ name u (Γ.decode style (.ref name) h bs).receiver

variable {Γ : Schema} {name : String} {u : Members} {h : Value}

/-! ### Holders at all times -/

/-- Decoding keeps a holder a holder of the union. -/
theorem decode_holds (hf : Γ.find? name = some (.holder u)) (hh : u.Holds h) (style : Style)
    (bs : List UInt8) : u.Holds (Γ.decode style (.ref name) h bs).receiver := by
  cases bs with
  | nil =>
    rw [decode_holder_nil hf]
    exact hh
  | cons tag rest =>
    by_cases ht : tag = 0
    · rw [ht, decode_holder_zero hf]
      exact .empty
    · cases hm : u.member? tag.toNat with
      | none =>
        rw [decode_holder_unknown hf ht hm]
        exact hh
      | some m =>
        rcases hv : Γ.decodeFresh .expanded m.shape rest with e | ⟨v, n⟩
        · rw [decode_holder_error hf hm hv]
          exact hh
        · rw [decode_holder_ok hf hm hv]
          exact .held v hm

theorem Reached.holds (hf : Γ.find? name = some (.holder u)) (hr : Γ.Reached name u h) :
    u.Holds h := by
  induction hr with
  | empty => exact .empty
  | new v hm => exact .held v hm
  | set _ v hm => exact .held v hm
  | decode _ style bs ih => exact decode_holds hf ih style bs

/-! ### The contract -/

/-- What a holder of the union promises. -/
structure HolderContract (Γ : Schema) (name : String) (u : Members) : Prop where
  size_eq : u.size = u.length + 1
  tag_lt : ∀ h, Γ.Reached name u h → Holder.tag h < u.size
  tag_eq_zero : ∀ h, Γ.Reached name u h → (Holder.tag h = 0 ↔ Holder.get? h = none)
  /-- An empty holder is written as its tag. -/
  encode_none : ∀ h style, Γ.Reached name u h → Holder.get? h = none →
    Γ.encode style (.ref name) h = [0]
  /-- Any other holder is written as its tag and then the member. -/
  encode_some : ∀ h style held, Γ.Reached name u h → Holder.get? h = some held →
    ∃ m v b, held = .member (Holder.tag h) v ∧ u[Holder.tag h - 1]? = some m ∧
      UInt8.toNat b = Holder.tag h ∧
      Γ.encode style (.ref name) h = b :: Γ.encode .expanded m.shape v
  decode_nil : ∀ h style, Γ.decode style (.ref name) h [] = ⟨.error .truncated, h⟩
  decode_zero : ∀ h style rest,
    Γ.decode style (.ref name) h (0 :: rest) = ⟨.ok 1, Holder.empty⟩
  /-- The tag of a member has it decoded afresh and put into the holder, if it can be decoded. -/
  decode_member : ∀ h style tag rest, 0 < UInt8.toNat tag → tag.toNat ≤ u.length →
    ∃ m, u[tag.toNat - 1]? = some m ∧
      (∀ v n, Γ.decodeFresh .expanded m.shape rest = .ok (v, n) →
        Γ.decode style (.ref name) h (tag :: rest) =
          ⟨.ok (1 + n), Holder.new (.member tag.toNat v)⟩) ∧
      ∀ e, Γ.decodeFresh .expanded m.shape rest = .error e →
        Γ.decode style (.ref name) h (tag :: rest) = ⟨.error e, h⟩
  decode_unknown : ∀ h style tag rest, u.length < UInt8.toNat tag →
    Γ.decode style (.ref name) h (tag :: rest) = ⟨.error (.unknownTag tag), h⟩
  decode_error : ∀ h style bs e w, Γ.decode style (.ref name) h bs = ⟨.error e, w⟩ → w = h

/-- A holder over a union whose tags fit a byte keeps its promises. -/
theorem holderContract (hf : Γ.find? name = some (.holder u)) (hu : u.length ≤ 255) :
    Γ.HolderContract name u where
  size_eq := rfl
  tag_lt h hr := by
    cases hr.holds hf with
    | empty => exact Nat.succ_pos u.length
    | held v hm => exact Members.tag_lt_size_of_member hm
  tag_eq_zero h hr := by
    cases hr.holds hf with
    | empty => exact ⟨fun _ => rfl, fun _ => rfl⟩
    | held v hm =>
      exact ⟨fun h0 => absurd h0 (Members.tag_pos_of_member hm).ne', fun hnone => by cases hnone⟩
  encode_none h style hr hnone := by
    cases hr.holds hf with
    | empty => exact encode_empty style hf
    | held v hm => cases hnone
  encode_some h style held hr hsome := by
    cases hr.holds hf with
    | empty => cases hsome
    | @held tag m v hm =>
      cases hsome
      have hlt : tag < u.length + 1 := Members.tag_lt_size_of_member hm
      refine ⟨m, v, tag.toUInt8, rfl, ?_, ?_, encode_held style hf hm v⟩
      · rw [← hm]
        exact (Members.member_of_pos (Members.tag_pos_of_member hm)).symm
      · exact UInt8.toNat_ofNat_of_lt' (show tag < 256 by omega)
  decode_nil h style := decode_holder_nil hf
  decode_zero h style rest := decode_holder_zero hf
  decode_member h style tag rest hlo hhi := by
    have hm : u.member? tag.toNat = some (u.get ⟨tag.toNat - 1, by omega⟩) := by
      rw [Members.member_of_pos hlo]
      exact List.getElem?_eq_getElem _
    refine ⟨_, (Members.member_of_pos hlo).symm.trans hm, fun v n hv => ?_, fun e he => ?_⟩
    · exact decode_holder_ok hf hm hv
    · exact decode_holder_error hf hm he
  decode_unknown h style tag rest hlt := by
    have ht : tag ≠ 0 := fun h0 => Nat.not_lt_zero _ (h0 ▸ hlt)
    exact decode_holder_unknown hf ht (Members.member_of_length_lt hlt)
  decode_error h style bs e w he := decode_holder_of_error hf he

end Schema

/-- **Holders keep their promises.**  A holder of an accepted package is one over a union that is
defined in the package.  It has as many members as the definition has variants, at most 255, each
under the tag of its position. -/
theorem Package.holder_contract {vocabulary : Vocabulary} {items : List Item} {p : Package}
    {name : String} {u : Members} (hp : Package.ofItems? vocabulary items = some p)
    (hf : p.schema.find? name = some (.holder u)) :
    (∃ item ∈ items, item.Defines vocabulary u) ∧ p.schema.HolderContract name u := by
  obtain ⟨item, hitem, hdefines⟩ := Package.defines_of_find hp hf
  exact ⟨⟨item, hitem, hdefines⟩, Schema.holderContract hf hdefines.length_le⟩

/-- A union of a byte and a text, and a holder for it. -/
def boxed : List Item :=
  [Catalogue.definition "Content"
      [Catalogue.variant "Number" Catalogue.u8, Catalogue.variant "Word" Catalogue.text],
    Catalogue.holder "Box" "Content"]

/-- The members that a declared type holds. -/
def Decl.members? : Decl → Option Members
  | holder u => some u
  | record _ => none

/-- The union and its holder are accepted, with the two members in order. -/
theorem Package.holder_contract_boxed :
    ∃ p u, Package.ofItems? {} boxed = some p ∧ p.schema.find? "Box" = some (.holder u) ∧
      u.map Member.name = ["Number", "Word"] ∧ (∃ item ∈ boxed, item.Defines {} u) ∧
      p.schema.HolderContract "Box" u := by
  have hnames : ((Package.ofItems? {} boxed).bind fun p =>
      (p.schema.find? "Box").bind Decl.members?).map (List.map Member.name) =
        some ["Number", "Word"] := by decide +kernel
  obtain ⟨u, hu, hnames⟩ := Option.map_eq_some_iff.1 hnames
  obtain ⟨p, hp, hu⟩ := Option.bind_eq_some_iff.1 hu
  obtain ⟨d, hd, hu⟩ := Option.bind_eq_some_iff.1 hu
  cases d with
  | record slots => cases hu
  | holder u' =>
    cases hu
    exact ⟨p, u, hp, hd, hnames, Package.holder_contract hp hd⟩

end Marshal
