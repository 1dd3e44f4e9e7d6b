import Mathlib.Data.List.TakeWhile
import Mathlib.Logic.Relation
import Marshal.Code.Basic
import Marshal.Proofs.Parts

/-!
# Nesting depths

In the field tree of a declaration the depths count the nodes from the top: the topmost node has
depth `0`, and a node has the depth of the one around it plus one (`Field.CountsFrom`).  Types in
parentheses and in brackets that are not printed have no nodes of their own, and key and value of a
map stand equally deep.

The text of a local name determines its family and its depth (`Local.text_inj`), and it is never one
of the names without a depth that emitted code uses (`Local.text_notMem_fixedNames`).  So the names
of a node differ from those of the nodes around it.
-/

namespace Marshal

/-! ### Field trees -/

namespace Field

/-- The depth of a node that is not a leaf. -/
def depth? : Field → Option Nat
  | leaf .. => none
  | array _ _ d _ | sequence _ _ d _ | map _ _ d _ _ | optional _ _ d _ | synonym _ _ d _
  | member _ _ d _ => some d

/-- The nodes right below a node. -/
def children : Field → List Field
  | leaf .. => []
  | array _ _ _ inner | sequence _ _ _ inner | optional _ _ _ inner | synonym _ _ _ inner
  | member _ _ _ inner => [inner]
  | map _ _ _ key value => [key, value]

/-- The second node stands in the tree of the first, or is the first. -/
def Contains : Field → Field → Prop := Relation.ReflTransGen fun f g => g ∈ f.children

/-- The second node stands below the first. -/
def Encloses : Field → Field → Prop := Relation.TransGen fun f g => g ∈ f.children

/-- The depths count the nodes from the given number on. -/
def CountsFrom : Field → Nat → Prop
  | leaf .., _ => True
  | array _ _ d inner, n | sequence _ _ d inner, n | optional _ _ d inner, n
  | synonym _ _ d inner, n | member _ _ d inner, n => d = n ∧ inner.CountsFrom (n + 1)
  | map _ _ d key value, n => d = n ∧ key.CountsFrom (n + 1) ∧ value.CountsFrom (n + 1)

theorem countsFrom_iff {f : Field} {n : Nat} :
    f.CountsFrom n ↔ (∀ d, f.depth? = some d → d = n) ∧ ∀ g ∈ f.children, g.CountsFrom (n + 1) := by
  cases f <;> simp [CountsFrom, depth?, children]

theorem exists_depth_of_mem_children {f g : Field} (h : g ∈ f.children) :
    ∃ d, f.depth? = some d := by
  cases f with
  | leaf => cases h
  | array | sequence | map | optional | synonym | member => exact ⟨_, rfl⟩

namespace CountsFrom

variable {f g : Field} {n : Nat}

theorem depth_eq (hf : f.CountsFrom n) {d : Nat} (hd : f.depth? = some d) : d = n :=
  (countsFrom_iff.1 hf).1 d hd

theorem child (hf : f.CountsFrom n) (hg : g ∈ f.children) : g.CountsFrom (n + 1) :=
  (countsFrom_iff.1 hf).2 g hg

theorem contains (hf : f.CountsFrom n) (hg : f.Contains g) : ∃ k, g.CountsFrom k := by
  induction hg with
  | refl => exact ⟨n, hf⟩
  | tail _ hchild ih =>
    obtain ⟨k, hk⟩ := ih
    exact ⟨k + 1, hk.child hchild⟩

theorem encloses (hf : f.CountsFrom n) (hg : f.Encloses g) : ∃ k, n < k ∧ g.CountsFrom k := by
  induction hg with
  | single hchild => exact ⟨n + 1, n.lt_succ_self, hf.child hchild⟩
  | tail _ hchild ih =>
    obtain ⟨k, hlt, hk⟩ := ih
    exact ⟨k + 1, Nat.lt_succ_of_lt hlt, hk.child hchild⟩

theorem withName (name : String) (hf : f.CountsFrom n) : (f.withName name).CountsFrom n := by
  induction f generalizing n name with
  | leaf => trivial
  | array _ _ _ _ ih | sequence _ _ _ _ ih | optional _ _ _ _ ih | synonym _ _ _ _ ih
  | member _ _ _ _ ih => exact ⟨hf.1, ih _ hf.2⟩
  | map _ _ _ _ _ ihkey ihvalue => exact ⟨hf.1, ihkey _ hf.2.1, ihvalue _ hf.2.2⟩

theorem withModifiers (m : Modifiers) (hf : f.CountsFrom n) : (f.withModifiers m).CountsFrom n := by
  induction f generalizing n with
  | leaf => trivial
  | array _ _ _ _ ih | sequence _ _ _ _ ih | optional _ _ _ _ ih | synonym _ _ _ _ ih
  | member _ _ _ _ ih => exact ⟨hf.1, ih hf.2⟩
  | map _ _ _ _ _ ihkey ihvalue => exact ⟨hf.1, ihkey hf.2.1, ihvalue hf.2.2⟩

theorem finish {name : String} {attributes : List Attribute} (hf : f.CountsFrom n)
    (h : f.finish name attributes = .ok g) : g.CountsFrom n := by
  obtain ⟨m, -, rfl⟩ := finish_eq_ok h
  exact (hf.withName name).withModifiers m

end CountsFrom

/-! ### Building -/

/-- Where the fields of the arguments count from one number on, the field of the path counts from
the number before. -/
theorem countsFrom_ofSegment {type : TypeExpr} {n : Nat} {s : Segment}
    {arguments : List (Except BuildError Field)} {f : Field}
    (hargs : ∀ g, .ok g ∈ arguments → g.CountsFrom (n + 1))
    (h : ofSegment type n s arguments = .ok f) : f.CountsFrom n := by
  unfold ofSegment at h
  split at h
  case h_1 | h_5 =>
    split at h
    · cases h
    · cases h
      exact ⟨rfl, hargs _ (by simp)⟩
  case h_2 | h_3 | h_4 =>
    split at h
    · cases h
    · cases h
    · cases h
      exact ⟨rfl, hargs _ (by simp), hargs _ (by simp)⟩
  case h_6 =>
    split at h <;> cases h <;> trivial

mutual

theorem countsFrom_ofType (t : TypeExpr) (n : Nat) {f : Field} (h : ofType t n = .ok f) :
    f.CountsFrom n := by
  cases t with
  | paren t | hidden t => exact countsFrom_ofType t n (by simpa only [ofType] using h)
  | array t length =>
    simp only [ofType] at h
    split at h
    · cases h
    · rename_i inner hinner
      cases h
      exact ⟨rfl, countsFrom_ofType t (n + 1) hinner⟩
  | path leading segments =>
    exact countsFrom_ofSegments _ n segments (by simpa only [ofType] using h)
  | _ => simp [ofType] at h

theorem countsFrom_ofSegments (type : TypeExpr) (n : Nat) (ss : List Segment) {f : Field}
    (h : ofSegments type n ss = .ok f) : f.CountsFrom n := by
  match ss with
  | [] => simp [ofSegments] at h
  | [s] =>
    rw [ofSegments] at h
    exact countsFrom_ofSegment (countsFrom_segmentFields s (n + 1)) h
  | _ :: s :: ss =>
    rw [ofSegments] at h
    exact countsFrom_ofSegments type n (s :: ss) h

theorem countsFrom_segmentFields (s : Segment) (n : Nat) :
    ∀ f, .ok f ∈ segmentFields s n → f.CountsFrom n := by
  intro f hf
  cases s with
  | plain | parenthesised => simp [segmentFields] at hf
  | applied _ _ arguments =>
    rw [segmentFields] at hf
    exact countsFrom_argumentFields arguments n f hf

theorem countsFrom_argumentFields (as : List Argument) (n : Nat) :
    ∀ f, .ok f ∈ argumentFields as n → f.CountsFrom n := by
  intro f hf
  match as with
  | [] => simp [argumentFields] at hf
  | .type t :: as =>
    rw [argumentFields] at hf
    rcases List.mem_cons.1 hf with hf | hf
    · exact countsFrom_ofType t n hf.symm
    · exact countsFrom_argumentFields as n f hf
  | .lifetime _ :: as | .other _ :: as =>
    rw [argumentFields] at hf
    exact countsFrom_argumentFields as n f hf

end

end Field

/-- Whichever way a field is built from a declaration, its depths count from `0` on. -/
theorem FieldDecl.Builds.countsFrom {d : FieldDecl} {f : Field} (h : d.Builds f) :
    f.CountsFrom 0 := by
  cases h with
  | field h =>
    obtain ⟨g, hg, h⟩ := Field.build_eq_ok h
    exact (Field.countsFrom_ofType _ _ hg).finish h
  | synonym hinner h =>
    refine Field.CountsFrom.finish ?_ h
    exact ⟨rfl, Field.countsFrom_ofType _ _ hinner⟩
  | member _ h =>
    obtain ⟨g, hg, h⟩ := Field.build_eq_ok h
    exact ⟨rfl, (Field.countsFrom_ofType _ _ hg).finish h⟩

theorem Item.countsFrom_modelAs {item : Item} {role : Role} {m : Model}
    (h : (item.modelAs role).result = .ok m) {p : Part} (hp : p ∈ m.parts) :
    p.field.CountsFrom 0 := by
  have hall : List.Forall₂ (fun p d => p.field.CountsFrom 0 ∧ FieldDecl.Builds d p.field)
      m.parts item.fieldDecls :=
    (Item.builtFrom_modelAs h).flip.imp fun _ _ hb => ⟨hb.countsFrom, hb⟩
  exact ((List.forall₂_and_left _ _).1 hall).1 p hp

/-! ### Names -/

theorem Family.text_inj {a b : Family} (h : a.text.toList = b.text.toList) : a = b := by
  revert h
  cases a <;> cases b <;> decide

theorem Family.all_text (a : Family) : a.text.toList.all fun c => !c.isDigit := by
  cases a <;> decide

namespace Local

theorem toList_text (x : Local) :
    x.text.toList = x.family.text.toList ++ Nat.toDigits 10 x.depth := by
  simp [text, Nat.toString_eq_repr, Nat.repr_eq_ofList_toDigits]

theorem isDigit_toDigits {n : Nat} {c : Char} (hc : c ∈ Nat.toDigits 10 n) : c.isDigit = true :=
  Nat.isDigit_of_mem_toDigits (by omega) (by omega) hc

theorem takeWhile_text (x : Local) :
    x.text.toList.takeWhile (fun c => !c.isDigit) = x.family.text.toList := by
  rw [toList_text, List.takeWhile_append_of_pos (List.all_eq_true.1 x.family.all_text),
    List.takeWhile_eq_nil_iff.2 ?_, List.append_nil]
  intro hlength
  simp [isDigit_toDigits (List.getElem_mem hlength)]

theorem text_inj {x y : Local} (h : x.text = y.text) : x = y := by
  have hfamily : x.family.text.toList = y.family.text.toList := by
    rw [← takeWhile_text, ← takeWhile_text, h]
  have hlist := congrArg String.toList h
  rw [toList_text, toList_text, hfamily, List.append_cancel_left_eq] at hlist
  have hdepth : x.depth = y.depth := by
    rw [← Nat.ofDigitChars_toDigits (n := x.depth) (by decide) (le_refl 10), hlist,
      Nat.ofDigitChars_toDigits (by decide) le_rfl]
  cases x
  cases y
  cases Family.text_inj hfamily
  cases hdepth
  rfl

/-- The names without a depth that emitted code uses. -/
def fixedNames : List String :=
  ["bs", "n", "n_off", "decoded", "presence", "tag", "self", "other"]

theorem text_notMem_fixedNames (x : Local) : x.text ∉ fixedNames := by
  intro hmem
  have hfixed : fixedNames.all fun s => s.toList.all fun c => !c.isDigit := by decide
  obtain ⟨c, hc⟩ := List.exists_mem_of_ne_nil _ (Nat.toDigits_ne_nil (n := x.depth) (b := 10))
  have hdigit := List.all_eq_true.1 (List.all_eq_true.1 hfixed _ hmem) c (by simp [toList_text, hc])
  simp [isDigit_toDigits hc] at hdigit

end Local

/-- The names of a node differ from those of the nodes around it. -/
theorem Field.CountsFrom.text_ne {f g h : Field} {n : Nat} (hf : f.CountsFrom n)
    (hg : f.Contains g) (hh : g.Encloses h) {x y : Local} (hx : g.depth? = some x.depth)
    (hy : h.depth? = some y.depth) : x.text ≠ y.text := by
  intro htext
  obtain ⟨k, hk⟩ := hf.contains hg
  obtain ⟨l, hlt, hl⟩ := hk.encloses hh
  have hxk := hk.depth_eq hx
  have hyl := hl.depth_eq hy
  rw [Local.text_inj htext] at hxk
  omega

/-- A node stands one deeper than the node around it. -/
theorem Field.CountsFrom.depth_child {f g h : Field} {n : Nat} (hf : f.CountsFrom n)
    (hg : f.Contains g) (hh : h ∈ g.children) {d : Nat} (hd : h.depth? = some d) :
    ∃ k, g.depth? = some k ∧ d = k + 1 := by
  obtain ⟨l, hl⟩ := hf.contains hg
  obtain ⟨k, hk⟩ := Field.exists_depth_of_mem_children hh
  refine ⟨k, hk, ?_⟩
  rw [hl.depth_eq hk, (hl.child hh).depth_eq hd]

end Marshal
