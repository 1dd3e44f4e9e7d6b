import Mathlib.Data.List.Forall2
import Marshal.Implementation.Definition
import Marshal.Proofs.Nesting

/-!
# Scopes of emitted names

`Code.marks` lists what emitted code does with names: where blocks start and end, which names are
bound and which are used.  To say which binder a use is meant for, the nodes of a model are numbered
(`Model.numbered`): the code of the numbered model is the same, except that every local name carries
the number of the node that introduced it, which tells the node if no number is given twice.
`Linked` reads both codes side by side.  A name is looked up by its text among those that can be
seen, and has to be found bound by the node that introduced it; and no name is bound while it can
still be seen.

The code of a field is linked because the depths count the nodes from the top: a scope in which no
name of depth `n` or more can be seen (`Scope.Clear`) is all that the code of a node of depth `n`
needs.  `Item.modelAs_uncaptured` says it of all procedures of an accepted item.
-/

namespace Marshal

/-! ### Names in code -/

/-- What code does with names. -/
inductive Mark where
  /-- A block starts. -/
  | enter
  /-- A block ends. -/
  | leave
  /-- A name without a depth is bound. -/
  | fixed (name : String)
  | bind (x : Local)
  | use (x : Local)
deriving DecidableEq, Repr

/-- What happens in a block of its own. -/
def Mark.within (ms : List Mark) : List Mark := .enter :: (ms ++ [.leave])

namespace Place

/-- The local names in a place, from left to right. -/
def locals : Place → List Local
  | root _ => []
  | var x | deref x => [x]
  | item p i => p.locals ++ [i]

/-- The uses of the names in a place. -/
def uses (p : Place) : List Mark := p.locals.map .use

end Place

/-- The place that is handed to a writer. -/
def Outgoing.place : Outgoing → Place
  | byValue p | byReference p | castTo p _ | converted p => p

/-- What code does with names.  What a name is bound to is looked at before the name is bound. -/
def Code.marks : Code → List Mark
  | skip | writePresence _ => []
  | seq first second => first.marks ++ second.marks
  | block body => Mark.within body.marks
  | bindRef x p => p.uses ++ [.bind x]
  | forIndex i p body => p.uses ++ Mark.within (.bind i :: body.marks)
  | encodeNested p | writeBytes p | writeLength p | decodeNested p | clear p | storeAbsent p =>
    p.uses
  | write _ e => e.place.uses
  | forEntries k v p body => p.uses ++ Mark.within (.bind k :: .bind v :: body.marks)
  | caseOption p x there absent =>
    p.uses ++ (Mark.within (.bind x :: there.marks) ++ Mark.within absent.marks)
  | readInto _ p _ => Mark.within (.fixed "decoded" :: .fixed "n_off" :: p.uses)
  | readBytesInto p => Mark.within (.fixed "decoded" :: .fixed "n_off" :: (p.uses ++ p.uses))
  | readLength x => [.bind x, .fixed "n_off"]
  | checkLength x => [.use x]
  | times x body => .use x :: Mark.within body.marks
  | bindFresh x _ _ => [.bind x]
  | push p x | storePresent p x | store p x => p.uses ++ [.use x]
  | insert p k v => p.uses ++ [.use k, .use v]
  | casePresence absent there =>
    .fixed "presence" :: .fixed "n_off" :: (Mark.within absent.marks ++ Mark.within there.marks)
  | requireSame p q | requireEqual p q | requireSameLength p q => p.uses ++ q.uses
  | bindEntry x p k => p.uses ++ [.use k, .bind x]
  | caseBoth p q l r there =>
    p.uses ++ (q.uses ++ Mark.within (.bind l :: .bind r :: there.marks))

theorem Code.marks_seq (c d : Code) : (Code.seq c d).marks = c.marks ++ d.marks := rfl

theorem Code.marks_ofList (cs : List Code) : (Code.ofList cs).marks = cs.flatMap Code.marks := by
  induction cs with
  | nil => rfl
  | cons c cs ih =>
    cases cs with
    | nil => simp [ofList]
    | cons => simp [ofList, marks, ih]

/-! ### Looking names up -/

/-- The names that can be seen, the last bound first.  A local name comes with the name that its
binder has in the numbered code. -/
abbrev Scope := List (String × Option Local)

/-- The two codes do the same with names, and every local name is found by its text where it is
bound in the numbered code.  The scopes around the current one are those to go back to. -/
inductive Linked : Scope → List Scope → List Mark → List Mark → Prop where
  | done {Γ} : Linked Γ [] [] []
  | enter {Γ outer ms ms'} (h : Linked Γ (Γ :: outer) ms ms') :
      Linked Γ outer (.enter :: ms) (.enter :: ms')
  | leave {Γ Δ outer ms ms'} (h : Linked Δ outer ms ms') :
      Linked Γ (Δ :: outer) (.leave :: ms) (.leave :: ms')
  | fixed {Γ outer ms ms'} (name : String) (h : Linked ((name, none) :: Γ) outer ms ms') :
      Linked Γ outer (.fixed name :: ms) (.fixed name :: ms')
  | bind {Γ outer ms ms'} {x x' : Local} (hfresh : Γ.lookup x.text = none)
      (h : Linked ((x.text, some x') :: Γ) outer ms ms') :
      Linked Γ outer (.bind x :: ms) (.bind x' :: ms')
  | use {Γ outer ms ms'} {x x' : Local} (hbound : Γ.lookup x.text = some (some x'))
      (h : Linked Γ outer ms ms') : Linked Γ outer (.use x :: ms) (.use x' :: ms')

namespace Scope

variable {Γ Δ : Scope} {n : Nat} {x x' y : Local} {l : Option Local}

theorem lookup_bind_ne (h : y ≠ x) : List.lookup y.text ((x.text, l) :: Γ) = Γ.lookup y.text := by
  have htext : (y.text == x.text) = false := by
    simpa using mt Local.text_inj h
  simp [List.lookup_cons, htext]

theorem lookup_fixed {name : String} (h : name ∈ Local.fixedNames) :
    List.lookup y.text ((name, l) :: Γ) = Γ.lookup y.text := by
  have htext : (y.text == name) = false := by
    rw [beq_eq_false_iff_ne]
    rintro rfl
    exact y.text_notMem_fixedNames h
  simp [List.lookup_cons, htext]

/-- No local name of the given depth or more can be seen. -/
def Clear (Γ : Scope) (n : Nat) : Prop := ∀ x : Local, n ≤ x.depth → Γ.lookup x.text = none

/-- The names are found where they are bound in the numbered code. -/
def Sees (Γ : Scope) : List Local → List Local → Prop :=
  List.Forall₂ fun x x' => Γ.lookup x.text = some (some x')

/-- The second scope is the first one with names of a node of depth `n` and number `m`, one for each
of the families, so that it can be used for the nodes below. -/
structure Opens (Γ : Scope) (n m : Nat) (families : List Family) (Δ : Scope) : Prop where
  clear : Δ.Clear (n + 1)
  keeps : ∀ {xs xs'}, Γ.Sees xs xs' → Δ.Sees xs xs'
  fresh : ∀ a ∉ families, Δ.lookup (Local.text ⟨a, n⟩) = none
  own : ∀ a ∈ families, Δ.lookup (Local.text ⟨a, n⟩) = some (some ⟨a, m⟩)

theorem Clear.opens (hΓ : Γ.Clear n) (m : Nat) : Γ.Opens n m [] Γ where
  clear x hx := hΓ x (Nat.le_of_succ_le hx)
  keeps := id
  fresh _ _ := hΓ _ le_rfl
  own := List.forall_mem_nil _

namespace Opens

variable {m : Nat} {families : List Family}

theorem bind (h : Γ.Opens n m families Δ) (a : Family) (ha : a ∉ families) :
    Γ.Opens n m (a :: families) ((Local.text ⟨a, n⟩, some ⟨a, m⟩) :: Δ) where
  clear y hy := by
    rw [lookup_bind_ne (by rintro rfl; exact Nat.not_succ_le_self n hy)]
    exact h.clear y hy
  keeps hxs := by
    refine (h.keeps hxs).imp fun y y' hy => ?_
    rw [lookup_bind_ne (by rintro rfl; simp [h.fresh a ha] at hy)]
    exact hy
  fresh b hb := by
    rw [lookup_bind_ne (by rintro ⟨⟩; simp at hb)]
    exact h.fresh b (List.not_mem_of_not_mem_cons hb)
  own b hb := by
    by_cases hab : b = a
    · subst hab
      exact List.lookup_cons_self
    · rw [lookup_bind_ne (by rintro ⟨⟩; exact hab rfl)]
      exact h.own b (List.mem_of_ne_of_mem hab hb)

theorem fixed (h : Γ.Opens n m families Δ) (name : String) (hname : name ∈ Local.fixedNames) :
    Γ.Opens n m families ((name, none) :: Δ) where
  clear y hy := by
    rw [lookup_fixed hname]
    exact h.clear y hy
  keeps hxs := by
    refine (h.keeps hxs).imp fun y y' hy => ?_
    rw [lookup_fixed hname]
    exact hy
  fresh b hb := by
    rw [lookup_fixed hname]
    exact h.fresh b hb
  own b hb := by
    rw [lookup_fixed hname]
    exact h.own b hb

theorem sees (h : Γ.Opens n m families Δ) (a : Family) (ha : a ∈ families) :
    Δ.Sees [⟨a, n⟩] [⟨a, m⟩] :=
  .cons (h.own a ha) .nil

end Opens

end Scope

namespace Linked

variable {Γ : Scope} {outer : List Scope} {ms ms' : List Mark} {p p' q q' : Place}

theorem uses (hp : Γ.Sees p.locals p'.locals) (hms : Linked Γ outer ms ms') :
    Linked Γ outer (p.uses ++ ms) (p'.uses ++ ms') := by
  unfold Place.uses
  generalize p.locals = xs, p'.locals = xs' at hp
  induction hp with
  | nil => exact hms
  | cons hx _ ih => exact .use hx ih

theorem usesBoth (hp : Γ.Sees p.locals p'.locals) (hq : Γ.Sees q.locals q'.locals)
    (hms : Linked Γ outer ms ms') :
    Linked Γ outer ((p.uses ++ q.uses) ++ ms) ((p'.uses ++ q'.uses) ++ ms') := by
  rw [List.append_assoc, List.append_assoc]
  exact .uses hp (.uses hq hms)

theorem of_append_nil (h : Linked Γ outer (ms ++ []) (ms' ++ [])) : Linked Γ outer ms ms' := by
  rwa [List.append_nil, List.append_nil] at h

end Linked

/-! ### Numbering nodes -/

namespace Field

/-- The tree with numbers for depths.  The number of a node depends on its position, which is the
way to it from the top, read backwards. -/
def numbered (number : List Nat → Nat) : Field → (position : List Nat) → Field
  | leaf info t w, _ => leaf info t w
  | array info t _ inner, position =>
    array info t (number position) (inner.numbered number (0 :: position))
  | sequence info t _ inner, position =>
    sequence info t (number position) (inner.numbered number (0 :: position))
  | map info t _ key value, position =>
    map info t (number position) (key.numbered number (0 :: position))
      (value.numbered number (1 :: position))
  | optional info t _ inner, position =>
    optional info t (number position) (inner.numbered number (0 :: position))
  | synonym info i _ inner, position =>
    synonym info i (number position) (inner.numbered number (0 :: position))
  | member info tag _ inner, position =>
    member info tag (number position) (inner.numbered number (0 :: position))

variable (number : List Nat → Nat)

theorem modifiers_numbered (f : Field) (position : List Nat) :
    (f.numbered number position).modifiers = f.modifiers := by
  cases f <;> rfl

theorem isRawByte_numbered (f : Field) (position : List Nat) :
    (f.numbered number position).isRawByte = f.isRawByte := by
  cases f <;> rfl

theorem takesBytes_numbered (f : Field) (position : List Nat) :
    (f.numbered number position).takesBytes = f.takesBytes := by
  induction f generalizing position with
  | leaf | array | sequence | map | optional => rfl
  | synonym _ _ _ _ ih | member _ _ _ _ ih => exact ih _

end Field

/-! ### The code of a field

Each induction is on the field tree.  The code of a node leaves the scope as it was, so that what
follows, `ms`, is linked in the same scope. -/

section Fields

variable {number : List Nat → Nat} {f : Field} {n : Nat} {position : List Nat} {Γ : Scope}
  {outer : List Scope} {ms ms' : List Mark} {p p' q q' : Place}

theorem place_outgoing (cast wire : Option Wire) (encoded : Wire) (p : Place) :
    (outgoing cast wire encoded p).place = p := by
  unfold outgoing
  split
  · split_ifs <;> rfl
  · rfl
  · rfl

/-- A loop over the indices of a place opens the scope for its items. -/
theorem Linked.forIndex {body body' : Code} {m : Nat} (hΓ : Γ.Clear n)
    (hp : Γ.Sees p.locals p'.locals)
    (hbody : ∀ Δ : Scope, Γ.Opens n m [.i] Δ →
      Linked Δ (Γ :: outer) (body.marks ++ .leave :: ms) (body'.marks ++ .leave :: ms')) :
    Linked Γ outer ((Code.forIndex ⟨.i, n⟩ p body).marks ++ ms)
      ((Code.forIndex ⟨.i, m⟩ p' body').marks ++ ms') := by
  simp only [Code.marks, Mark.within, List.append_assoc, List.cons_append, List.nil_append]
  have h := (hΓ.opens m).bind .i (by decide)
  exact .uses hp (.enter (.bind (hΓ _ le_rfl) (hbody _ h)))

theorem Scope.Opens.sees_item {Δ : Scope} {m : Nat} (h : Γ.Opens n m [.i] Δ)
    (hp : Γ.Sees p.locals p'.locals) :
    Δ.Sees (Place.item p ⟨.i, n⟩).locals (Place.item p' ⟨.i, m⟩).locals :=
  List.rel_append (h.keeps hp) (h.sees .i (by decide))

theorem Field.linked_encodeCode (hf : f.CountsFrom n) (hΓ : Γ.Clear n)
    (hp : Γ.Sees p.locals p'.locals) (hms : Linked Γ outer ms ms') :
    Linked Γ outer ((f.encodeCode p).marks ++ ms)
      (((f.numbered number position).encodeCode p').marks ++ ms') := by
  induction f generalizing n position Γ outer ms ms' p p' with
  | leaf info t wire =>
    simp only [numbered, encodeCode]
    split
    · exact .uses hp hms
    · simp only [Code.marks, place_outgoing]
      exact .uses hp hms
  | array _ _ _ inner ih =>
    obtain ⟨rfl, hinner⟩ := hf
    exact .forIndex hΓ hp fun Δ h => ih hinner h.clear (h.sees_item hp) (.leave hms)
  | sequence _ _ _ inner ih =>
    obtain ⟨rfl, hinner⟩ := hf
    simp only [numbered, encodeCode, isRawByte_numbered]
    split_ifs
    · exact .uses hp hms
    · simp only [Code.marks_seq, List.append_assoc]
      exact .uses hp <| .forIndex hΓ hp fun Δ h =>
        ih hinner h.clear (h.sees_item hp) (.leave hms)
  | map _ _ _ key value ihkey ihvalue =>
    obtain ⟨rfl, hkey, hvalue⟩ := hf
    simp only [numbered, encodeCode, Code.marks, Mark.within, List.append_assoc, List.cons_append,
      List.nil_append]
    have hk := (hΓ.opens (number position)).bind .k (by decide)
    have hv := hk.bind .v (by decide)
    refine .uses hp <| .uses hp <| .enter <| .bind (hΓ _ le_rfl) <|
      .bind (hk.fresh .v (by decide)) ?_
    exact ihkey hkey hv.clear (hv.sees .k (by decide)) <|
      ihvalue hvalue hv.clear (hv.sees .v (by decide)) <| .leave hms
  | optional _ _ _ inner ih =>
    obtain ⟨rfl, hinner⟩ := hf
    simp only [numbered, encodeCode, Code.marks, Mark.within, List.append_assoc, List.cons_append,
      List.nil_append]
    have hx := (hΓ.opens (number position)).bind .value (by decide)
    refine .uses hp <| .enter <| .bind (hΓ _ le_rfl) ?_
    exact ih hinner hx.clear (hx.sees .value (by decide)) <| .leave <| .enter <| .leave hms
  | synonym _ _ _ inner ih =>
    obtain ⟨rfl, hinner⟩ := hf
    simp only [numbered, encodeCode, Code.marks, Mark.within, List.append_assoc, List.cons_append,
      List.nil_append]
    have hx := (hΓ.opens (number position)).bind .value (by decide)
    refine .enter <| .uses hp <| .bind (hΓ _ le_rfl) ?_
    exact ih hinner hx.clear (hx.sees .value (by decide)) <| .leave hms
  | member _ _ _ inner ih => exact ih hf.2 (hΓ.opens 0).clear hp hms

theorem Linked.lengthCheck {x x' : Local} (takesBytes : Bool)
    (hx : Γ.lookup x.text = some (some x')) (hms : Linked Γ outer ms ms') :
    Linked Γ outer ((lengthCheck x takesBytes).marks ++ ms)
      ((lengthCheck x' takesBytes).marks ++ ms') := by
  cases takesBytes with
  | true => exact .use hx hms
  | false => exact hms

/-- Reading as many items as announced opens the scope for an item, in which the number can be
seen too. -/
theorem Linked.readItems {body body' : Code} {m : Nat} (takesBytes : Bool) (hΓ : Γ.Clear n)
    (hp : Γ.Sees p.locals p'.locals)
    (hbody : ∀ Δ : Scope, Γ.Opens n m [.length] Δ →
      Linked Δ (Δ :: Γ :: outer) (body.marks ++ .leave :: .leave :: ms)
        (body'.marks ++ .leave :: .leave :: ms')) :
    Linked Γ outer
      ((Code.block <| .ofList
        [.readLength ⟨.length, n⟩, Marshal.lengthCheck ⟨.length, n⟩ takesBytes, .clear p,
          .times ⟨.length, n⟩ body]).marks ++ ms)
      ((Code.block <| .ofList
        [.readLength ⟨.length, m⟩, Marshal.lengthCheck ⟨.length, m⟩ takesBytes, .clear p',
          .times ⟨.length, m⟩ body']).marks ++ ms') := by
  simp only [Code.marks, Code.marks_ofList, Mark.within, List.flatMap_cons, List.flatMap_nil,
    List.append_assoc, List.cons_append, List.nil_append]
  have h := ((hΓ.opens m).bind .length (by decide)).fixed "n_off" (by decide)
  have hlength := h.own .length (by decide)
  exact .enter <| .bind (hΓ _ le_rfl) <| .fixed _ <| .lengthCheck _ hlength <|
    .uses (h.keeps hp) <| .use hlength <| .enter <| hbody _ h

theorem Field.linked_decodeCode (hf : f.CountsFrom n) (hΓ : Γ.Clear n)
    (hp : Γ.Sees p.locals p'.locals) (hms : Linked Γ outer ms ms') :
    Linked Γ outer ((f.decodeCode p).marks ++ ms)
      (((f.numbered number position).decodeCode p').marks ++ ms') := by
  induction f generalizing n position Γ outer ms ms' p p' with
  | leaf info t wire =>
    simp only [numbered, decodeCode]
    split
    · exact .uses hp hms
    · simp only [Code.marks, Mark.within, List.append_assoc, List.cons_append, List.nil_append]
      have h := ((hΓ.opens 0).fixed "decoded" (by decide)).fixed "n_off" (by decide)
      exact .enter <| .fixed _ <| .fixed _ <| .uses (h.keeps hp) <| .leave hms
  | array _ _ _ inner ih =>
    obtain ⟨rfl, hinner⟩ := hf
    exact .forIndex hΓ hp fun Δ h => ih hinner h.clear (h.sees_item hp) (.leave hms)
  | sequence _ _ _ inner ih =>
    obtain ⟨rfl, hinner⟩ := hf
    simp only [numbered, decodeCode, isRawByte_numbered, takesBytes_numbered]
    split_ifs
    · simp only [Code.marks, Mark.within, List.append_assoc, List.cons_append, List.nil_append]
      have h := ((hΓ.opens 0).fixed "decoded" (by decide)).fixed "n_off" (by decide)
      exact .enter <| .fixed _ <| .fixed _ <| .uses (h.keeps hp) <| .uses (h.keeps hp) <| .leave hms
    · refine .readItems _ hΓ hp fun Δ h => ?_
      simp only [Code.marks, Code.marks_ofList, List.flatMap_cons, List.flatMap_nil,
        List.append_assoc, List.cons_append, List.nil_append]
      have hx := h.bind .value (by decide)
      exact .bind (h.fresh .value (by decide)) <|
        ih hinner hx.clear (hx.sees .value (by decide)) <| .uses (hx.keeps hp) <|
        .use (hx.own .value (by decide)) <| .leave <| .leave hms
  | map _ _ _ key value ihkey ihvalue =>
    obtain ⟨rfl, hkey, hvalue⟩ := hf
    simp only [numbered, decodeCode, takesBytes_numbered]
    refine .readItems _ hΓ hp fun Δ h => ?_
    simp only [Code.marks, Code.marks_ofList, List.flatMap_cons, List.flatMap_nil,
      List.append_assoc, List.cons_append, List.nil_append]
    have hk := h.bind .key (by decide)
    have hv := hk.bind .val (by decide)
    -- Both names are bound before the key is read, and the two trees count from the same number.
    exact .bind (h.fresh .key (by decide)) <| .bind (hk.fresh .val (by decide)) <|
      ihkey hkey hv.clear (hv.sees .key (by decide)) <|
      ihvalue hvalue hv.clear (hv.sees .val (by decide)) <| .uses (hv.keeps hp) <|
      .use (hv.own .key (by decide)) <| .use (hv.own .val (by decide)) <| .leave <| .leave hms
  | optional _ _ _ inner ih =>
    obtain ⟨rfl, hinner⟩ := hf
    simp only [numbered, decodeCode, Code.marks, Code.marks_ofList, Mark.within, List.flatMap_cons,
      List.flatMap_nil, List.append_assoc, List.cons_append, List.nil_append]
    have h := ((hΓ.opens (number position)).fixed "presence" (by decide)).fixed "n_off" (by decide)
    have hx := h.bind .value (by decide)
    -- The place is used in the first branch already, where the content has no name yet.
    refine .enter <| .fixed _ <| .fixed _ <| .enter <| .uses (h.keeps hp) <| .leave <| .enter <|
      .bind (h.fresh .value (by decide)) ?_
    exact ih hinner hx.clear (hx.sees .value (by decide)) <| .uses (hx.keeps hp) <|
      .use (hx.own .value (by decide)) <| .leave <| .leave hms
  | synonym _ _ _ inner ih =>
    obtain ⟨rfl, hinner⟩ := hf
    simp only [numbered, decodeCode, Code.marks, Code.marks_ofList, Mark.within, List.flatMap_cons,
      List.flatMap_nil, List.append_assoc, List.cons_append, List.nil_append]
    have hx := (hΓ.opens (number position)).bind .value (by decide)
    refine .enter <| .bind (hΓ _ le_rfl) ?_
    exact ih hinner hx.clear (hx.sees .value (by decide)) <| .uses (hx.keeps hp) <|
      .use (hx.own .value (by decide)) <| .leave hms
  | member _ _ _ inner ih => exact ih hf.2 (hΓ.opens 0).clear hp hms

theorem Field.linked_equalityCode (hf : f.CountsFrom n) (hΓ : Γ.Clear n)
    (hp : Γ.Sees p.locals p'.locals) (hq : Γ.Sees q.locals q'.locals)
    (hms : Linked Γ outer ms ms') :
    Linked Γ outer ((f.equalityCode p q).marks ++ ms)
      (((f.numbered number position).equalityCode p' q').marks ++ ms') := by
  induction f generalizing n position Γ outer ms ms' p p' q q' with
  | leaf info t wire =>
    simp only [numbered, equalityCode]
    split_ifs
    · exact .usesBoth hp hq hms
    · exact .usesBoth hp hq hms
  | array _ _ _ inner ih | sequence _ _ _ inner ih =>
    obtain ⟨rfl, hinner⟩ := hf
    simp only [numbered, equalityCode, itemsEqualityCode, Code.marks_seq, List.append_assoc]
    exact .usesBoth hp hq <| .forIndex hΓ hp fun Δ h =>
      ih hinner h.clear (h.sees_item hp) (h.sees_item hq) (.leave hms)
  | map _ _ _ key value _ ihvalue =>
    obtain ⟨rfl, -, hvalue⟩ := hf
    simp only [numbered, equalityCode, Code.marks, Mark.within, List.append_assoc,
      List.cons_append, List.nil_append]
    have hk := (hΓ.opens (number position)).bind .k (by decide)
    have hl := hk.bind .lhs (by decide)
    have hr := hl.bind .rhs (by decide)
    -- The right side is looked up by the key of the left side before it has a name.
    refine .uses hp <| .uses hq <| .uses hp <| .enter <| .bind (hΓ _ le_rfl) <|
      .bind (hk.fresh .lhs (by decide)) <| .uses (hl.keeps hq) <| .use (hl.own .k (by decide)) <|
      .bind (hl.fresh .rhs (by decide)) ?_
    exact ihvalue hvalue hr.clear (hr.sees .lhs (by decide)) (hr.sees .rhs (by decide)) <|
      .leave hms
  | optional _ _ _ inner ih =>
    obtain ⟨rfl, hinner⟩ := hf
    simp only [numbered, equalityCode, Code.marks, Mark.within, List.append_assoc,
      List.cons_append, List.nil_append]
    have hl := (hΓ.opens (number position)).bind .lhs (by decide)
    have hr := hl.bind .rhs (by decide)
    refine .uses hp <| .uses hq <| .enter <| .bind (hΓ _ le_rfl) <|
      .bind (hl.fresh .rhs (by decide)) ?_
    exact ih hinner hr.clear (hr.sees .lhs (by decide)) (hr.sees .rhs (by decide)) <| .leave hms
  | synonym _ _ _ inner ih =>
    obtain ⟨rfl, hinner⟩ := hf
    simp only [numbered, equalityCode, Code.marks, Code.marks_ofList, Mark.within,
      List.flatMap_cons, List.flatMap_nil, List.append_assoc, List.cons_append, List.nil_append]
    have hl := (hΓ.opens (number position)).bind .lhs (by decide)
    have hr := hl.bind .rhs (by decide)
    refine .enter <| .uses hp <| .bind (hΓ _ le_rfl) <| .uses (hl.keeps hq) <|
      .bind (hl.fresh .rhs (by decide)) ?_
    exact ih hinner hr.clear (hr.sees .lhs (by decide)) (hr.sees .rhs (by decide)) <| .leave hms
  | member _ _ _ inner ih => exact ih hf.2 (hΓ.opens 0).clear hp hq hms

end Fields

/-! ### Procedures -/

/-- What the cases of a member do with names in the functions that encode, decode and compare.  The
names for what the member wraps are bound by the case, or used in what decoding returns. -/
def MemberEntry.procedures (e : MemberEntry) : List (List Mark) :=
  [.bind e.value :: e.encodeCode.marks, e.decodeCode.marks ++ [.use e.value],
    .bind e.lhs :: .bind e.rhs :: e.equalityCode.marks]

namespace Model

/-- What the emitted procedures of a model do with names.  Those of a holder have no local names. -/
def procedures (m : Model) : List (List Mark) :=
  match m.role with
  | .holder _ => []
  | .definition => m.members.flatMap MemberEntry.procedures
  | .none | .record =>
    [m.encodeCode.flatMap Code.marks, m.decodeCode.flatMap Code.marks,
      m.equalityCode.flatMap Code.marks]

/-- The model with numbers for depths. -/
def numbered (number : List Nat → Nat) (m : Model) : Model :=
  { m with parts := m.parts.mapIdx fun i p => ⟨p.label, p.field.numbered number [i]⟩ }

end Model

/-- The scope of a procedure, in which the names without a depth can be seen. -/
def Scope.start : Scope := Local.fixedNames.map fun name => (name, none)

theorem Scope.clear_start : Scope.start.Clear 0 := by
  intro x _
  refine List.lookup_eq_none_iff.2 fun p hp => ?_
  obtain ⟨name, hname, rfl⟩ := List.mem_map.1 hp
  rw [bne_iff_ne]
  rintro rfl
  exact x.text_notMem_fixedNames hname

section Procedures

variable {number : List Nat → Nat}

/-- The second part is the first one with numbers for depths that count from `0` on. -/
def Part.NumberedAs (number : List Nat → Nat) (p p' : Part) : Prop :=
  p.field.CountsFrom 0 ∧ ∃ position, p' = ⟨p.label, p.field.numbered number position⟩

/-- The second member is the first one with numbers for depths that count from `0` on. -/
def MemberEntry.NumberedAs (number : List Nat → Nat) (e e' : MemberEntry) : Prop :=
  e.depth = 0 ∧ e.inner.CountsFrom 1 ∧
    ∃ k position, e' = ⟨e.variant, e.tag, k, e.inner.numbered number position⟩

theorem Model.numberedAs_parts (number : List Nat → Nat) {m : Model}
    (h : ∀ p ∈ m.parts, p.field.CountsFrom 0) :
    List.Forall₂ (Part.NumberedAs number) m.parts (m.numbered number).parts := by
  refine List.forall₂_iff_get.2 ⟨by simp [numbered], fun i hi hi' => ?_⟩
  refine ⟨h _ (List.get_mem _ _), [i], ?_⟩
  simp [numbered]

theorem Part.NumberedAs.member? {p p' : Part} (h : p.NumberedAs number p') :
    Option.Rel (MemberEntry.NumberedAs number) p.member? p'.member? := by
  obtain ⟨hcounts, position, rfl⟩ := h
  obtain ⟨label, field⟩ := p
  cases label with
  | index => exact .none
  | name variant =>
    cases field with
    | member info tag depth inner => exact .some ⟨hcounts.1, hcounts.2, _, _, rfl⟩
    | leaf | array | sequence | map | optional | synonym => exact .none

theorem MemberEntry.NumberedAs.linked {e e' : MemberEntry} (h : e.NumberedAs number e') :
    List.Forall₂ (Linked Scope.start []) e.procedures e'.procedures := by
  obtain ⟨variant, tag, depth, inner⟩ := e
  obtain ⟨hdepth, hinner, k, position, rfl⟩ := h
  cases hdepth
  have hstart := Scope.clear_start.opens k
  have hvalue := hstart.bind .value (by decide)
  have hlhs := hstart.bind .lhs (by decide)
  have hrhs := hlhs.bind .rhs (by decide)
  refine .cons (.bind (Scope.clear_start _ le_rfl) (.of_append_nil ?_)) (.cons ?_ (.cons ?_ .nil))
  · exact Field.linked_encodeCode hinner hvalue.clear (hvalue.sees .value (by decide)) .done
  · exact .bind (Scope.clear_start _ le_rfl) <| Field.linked_decodeCode hinner hvalue.clear
      (hvalue.sees .value (by decide)) <| .use (hvalue.own .value (by decide)) .done
  · refine .bind (Scope.clear_start _ le_rfl) <| .bind (hlhs.fresh .rhs (by decide)) <|
      .of_append_nil ?_
    exact Field.linked_equalityCode hinner hrhs.clear (hrhs.sees .lhs (by decide))
      (hrhs.sees .rhs (by decide)) .done

theorem linked_parts {R : Part → Part → Prop} {keep : Part → Bool} {code : Part → Code}
    {Γ : Scope} (hkeep : ∀ p p', R p p' → keep p' = keep p)
    (hcode : ∀ p p', R p p' → ∀ ms ms', Linked Γ [] ms ms' →
      Linked Γ [] ((code p).marks ++ ms) ((code p').marks ++ ms'))
    {ps ps' : List Part} (h : List.Forall₂ R ps ps') :
    Linked Γ [] (((ps.filter keep).map code).flatMap Code.marks)
      (((ps'.filter keep).map code).flatMap Code.marks) := by
  induction h with
  | nil => exact .done
  | cons hp _ ih =>
    rw [List.filter_cons, List.filter_cons, hkeep _ _ hp]
    split_ifs
    · exact hcode _ _ hp _ _ ih
    · exact ih

theorem Model.linked_procedures {m : Model} (h : ∀ p ∈ m.parts, p.field.CountsFrom 0) :
    List.Forall₂ (Linked Scope.start []) m.procedures (m.numbered number).procedures := by
  have hparts := numberedAs_parts number h
  have hrole : (m.numbered number).role = m.role := rfl
  have hkeep (left : Modifiers → Bool) (p p' : Part) (hp : p.NumberedAs number p') :
      (!left p'.field.modifiers) = !left p.field.modifiers := by
    obtain ⟨-, position, rfl⟩ := hp
    rw [Field.modifiers_numbered]
  unfold procedures
  rw [hrole]
  split
  · exact .nil
  · exact List.rel_flatMap (List.rel_filterMap (fun _ _ hp => hp.member?) hparts)
      fun _ _ he => he.linked
  all_goals
    refine .cons ?_ (.cons ?_ (.cons ?_ .nil))
    · refine linked_parts (hkeep Modifiers.offWire) ?_ hparts
      rintro p _ ⟨hcounts, position, rfl⟩ ms ms' hms
      exact Field.linked_encodeCode hcounts Scope.clear_start .nil hms
    · refine linked_parts (hkeep Modifiers.offWire) ?_ hparts
      rintro p _ ⟨hcounts, position, rfl⟩ ms ms' hms
      exact Field.linked_decodeCode hcounts Scope.clear_start .nil hms
    · refine linked_parts (hkeep Modifiers.uncompared) ?_ hparts
      rintro p _ ⟨hcounts, position, rfl⟩ ms ms' hms
      exact Field.linked_equalityCode hcounts Scope.clear_start .nil .nil hms

end Procedures

/-! ### Accepted items -/

/-- The local names of the emitted procedures do not capture each other. -/
structure Model.Uncaptured (m : Model) : Prop where
  /-- The topmost node of a part has depth `0`. -/
  top : ∀ p ∈ m.parts, ∀ d, p.field.depth? = some d → d = 0
  /-- Every other node that is not a leaf stands one deeper than the node around it. -/
  below : ∀ p ∈ m.parts, ∀ f g, p.field.Contains f → g ∈ f.children →
    ∀ d, g.depth? = some d → ∃ k, f.depth? = some k ∧ d = k + 1
  /-- The names of a node differ from those of the nodes around it. -/
  distinct : ∀ p ∈ m.parts, ∀ f g, p.field.Contains f → f.Encloses g →
    ∀ x y : Local, f.depth? = some x.depth → g.depth? = some y.depth → x.text ≠ y.text
  /-- The names of a node differ from those without a depth. -/
  unlike : ∀ p ∈ m.parts, ∀ f, p.field.Contains f →
    ∀ x : Local, f.depth? = some x.depth → x.text ∉ Local.fixedNames
  /-- However the nodes are numbered, every use of a name is found bound by the node that introduced
  it, and no name is bound while it can be seen. -/
  linked : ∀ number : List Nat → Nat,
    List.Forall₂ (Linked Scope.start []) m.procedures (m.numbered number).procedures

/-- In the code of an accepted item no local name captures another. -/
theorem Item.modelAs_uncaptured {item : Item} {role : Role} {m : Model}
    (h : (item.modelAs role).result = .ok m) : m.Uncaptured := by
  have hcounts : ∀ p ∈ m.parts, p.field.CountsFrom 0 := fun _ hp => countsFrom_modelAs h hp
  constructor
  case top =>
    intro p hp d hd
    exact (hcounts p hp).depth_eq hd
  case below =>
    intro p hp f g hf hg d hd
    exact (hcounts p hp).depth_child hf hg hd
  case distinct =>
    intro p hp f g hf hg x y hx hy
    exact (hcounts p hp).text_ne hf hg hx hy
  case unlike =>
    intro _ _ _ _ x _
    exact x.text_notMem_fixedNames
  case linked =>
    intro number
    exact Model.linked_procedures hcounts

/-- A union of rows of optional numbers and of arrays under names. -/
def Item.sheet : Item where
  name := "Sheet"
  body := .enumeration [
    { name := "Rows"
      fields := .tuple [{ type := .apply "Vec" [.apply "Vec" [.apply "Option" [.named "u16"]]] }] },
    { name := "Columns"
      fields := .tuple
        [{ type := .apply "HashMap" [.named "String", .paren (.array (.named "u32") "4")] }] }]

theorem Item.modelAs_uncaptured_sheet :
    ∃ m, (sheet.modelAs .definition).result = .ok m ∧ m.procedures.length = 6 ∧ m.Uncaptured := by
  have h : (sheet.modelAs .definition).result = .ok _ := rfl
  exact ⟨_, h, rfl, modelAs_uncaptured h⟩

end Marshal
