import Marshal.Code.Basic
import Marshal.Layout
import Marshal.Schema.Encode
import Marshal.Schema.Decode
import Marshal.Schema.Equality
import Marshal.Proofs.Definition
import Marshal.Proofs.TypeGrammar

/-!
# Running emitted code

`Code.run` runs emitted statements on a `State`: the names that can be seen with what they stand
for, the bytes written so far, and the input with the running offset.  The statements carry no
types.  A place has the type that its name was given, or that its position in a container has, and
the type decides what is called: the code of a declared type, a cast, a conversion, the order of
keys.

* A block, a branch and each round of a loop have a scope of their own.  What they bind is gone
  behind them, also if they end in a fault (`Exit.leave`).
* A fault leaves the memory as it was when it occurred, so that what becomes of the receiver of a
  decoder can be seen.
* Code that asks for what is not there is stuck (`Exit.stuck`): for a name that is not bound, for a
  value of another form or type, for a conversion that is not known.
-/

namespace Marshal

/-! ### Types of places -/

namespace TypeExpr

/-- The type at a position among those that a container is built from. -/
def part? (t : TypeExpr) (i : Nat) : Option TypeExpr := t.bare.contents[i]?

/-- The scalar that a type is. -/
def scalar? (t : TypeExpr) : Option Scalar :=
  match t.bare with
  | .path _ ss => (ss.getLast?.bind Segment.wire?).map Wire.scalar
  | _ => none

end TypeExpr

namespace Vocabulary

variable (vocabulary : Vocabulary)

/-- The conversion of a type that is neither a scalar nor a container. -/
def conversion? (t : TypeExpr) : Option Conversion :=
  if t.scalar?.isNone ∧ t.bare.contents.isEmpty then
    t.bare.lastIdent?.bind fun ident => vocabulary.conversions.lookup ident
  else none

/-- When two values of a type that is a scalar or has a conversion are equal. -/
def same? (t : TypeExpr) : Option (Datum → Datum → Bool) :=
  match t.scalar? with
  | some s => some s.same
  | none => (vocabulary.conversion? t).map Conversion.same

/-- The blank value of a type.  A type with a conversion is blank where the conversion starts. -/
def blank? (Γ : Schema) (t : TypeExpr) : Option Value :=
  match vocabulary.conversion? t with
  | some c => some (.datum c.carrier.blank)
  | none => (t.shape? vocabulary).map Γ.blank

/-- How the keys of a map compare, whose type is given. -/
def compareKeys (key : TypeExpr) : Value → Value → Ordering := (vocabulary.order key.bare).compare

end Vocabulary

/-- The blank value that an expression makes for a type. -/
def Fresh.value? (vocabulary : Vocabulary) (Γ : Schema) : Fresh → TypeExpr → Option Value
  | byDefault, t => vocabulary.blank? Γ t
  | arrayOf e, t =>
    match t.bare.arraySize?, t.part? 0 with
    | some size, some u => (e.value? vocabulary Γ u).map fun v => .items (List.replicate size v)
    | _, _ => none

/-! ### Memory -/

/-- A name that can be seen. -/
inductive Name where
  /-- Given from outside. -/
  | outer (tokens : List Token)
  | inner (x : Local)
deriving DecidableEq

/-- What a name stands for.  Nothing is written while a reference is in use, so a reference is given
by the value that it refers to. -/
inductive Binding where
  | value (type : TypeExpr) (v : Value)
  | reference (type : TypeExpr) (v : Value)
  /-- A number of items, or the index of a loop. -/
  | number (n : Nat)

namespace Binding

/-- The value of a variable, with its type. -/
def value? : Binding → Option (TypeExpr × Value)
  | value t v => some (t, v)
  | reference _ _ | number _ => none

/-- What a reference refers to, with its type. -/
def reference? : Binding → Option (TypeExpr × Value)
  | reference t v => some (t, v)
  | value _ _ | number _ => none

/-- The number. -/
def number? : Binding → Option Nat
  | number n => some n
  | value _ _ | reference _ _ => none

/-- Stores a value in a variable. -/
def store (w : Value) : Binding → Binding
  | value t _ => value t w
  | reference t v => reference t v
  | number n => number n

end Binding

/-- The names that can be seen, the innermost first. -/
abbrev Memory := List (Name × Binding)

namespace Memory

/-- The value of a local variable. -/
def value? (m : Memory) (x : Local) : Option Value :=
  ((m.lookup (.inner x)).bind Binding.value?).map Prod.snd

/-- The number that a local name stands for. -/
def number? (m : Memory) (x : Local) : Option Nat := (m.lookup (.inner x)).bind Binding.number?

/-- Stores a value under a name. -/
def assign (name : Name) (v : Value) : Memory → Memory
  | [] => []
  | (x, b) :: m => if name = x then (x, b.store v) :: m else (x, b) :: assign name v m

/-- The memory without what was bound since it had the given size. -/
def leave (size : Nat) (m : Memory) : Memory := m.drop (m.length - size)

end Memory

namespace Place

/-- What is at a place, with its type. -/
def read (m : Memory) : Place → Option (TypeExpr × Value)
  | root tokens => (m.lookup (.outer tokens)).bind Binding.value?
  | var x => (m.lookup (.inner x)).bind Binding.value?
  | deref x => (m.lookup (.inner x)).bind Binding.reference?
  | item p i =>
    match p.read m, m.number? i with
    | some (t, .items vs), some j =>
      match t.part? 0, vs[j]? with
      | some u, some v => some (u, v)
      | _, _ => none
    | _, _ => none

/-- The place is not behind a reference, so that it can be written to. -/
def owned : Place → Bool
  | root _ | var _ => true
  | deref _ => false
  | item p _ => p.owned

/-- Puts a value in a place. -/
def put (m : Memory) : Place → Value → Memory
  | root tokens, v => m.assign (.outer tokens) v
  | var x, v => m.assign (.inner x) v
  | deref _, _ => m
  | item p i, v =>
    match p.read m, m.number? i with
    | some (_, .items vs), some j => p.put m (.items (vs.set j v))
    | _, _ => m

/-- The shape of the type of a place, and what is there. -/
def shaped? (vocabulary : Vocabulary) (m : Memory) (p : Place) : Option (Shape × Value) :=
  match p.read m with
  | some (t, v) => (t.shape? vocabulary).map fun s => (s, v)
  | none => none

/-- The scalar at a place, with the type of the place. -/
def datum? (m : Memory) (p : Place) : Option (TypeExpr × Datum) :=
  match p.read m with
  | some (t, .datum d) => some (t, d)
  | _ => none

/-- The number of items at a place. -/
def count? (m : Memory) (p : Place) : Option Nat :=
  match p.read m with
  | some (_, .items vs) => some vs.length
  | some (_, .entries es) => some es.length
  | _ => none

end Place

/-- What is handed to the writer of a wire kind.  A cast names the type that the writer takes. -/
def Outgoing.datum? (vocabulary : Vocabulary) (m : Memory) (w : Wire) : Outgoing → Option Datum
  | byValue p =>
    match p.datum? m with
    | some (t, d) => if w.byReference = false ∧ t.scalar? = some w.scalar then some d else none
    | none => none
  | byReference p =>
    match p.datum? m with
    | some (t, d) => if w.byReference = true ∧ t.scalar? = some w.scalar then some d else none
    | none => none
  | castTo p target =>
    match p.datum? m with
    | some (t, d) => if target = w then t.scalar?.map fun s => s.convert w.scalar d else none
    | none => none
  | converted p =>
    match p.datum? m with
    | some (t, d) => (vocabulary.conversion? t).map fun c => c.toWire d
    | none => none

/-- What is stored in a place of type `t` for what the reader of a wire kind gives. -/
def Incoming.stored? (vocabulary : Vocabulary) (w : Wire) (t : TypeExpr) :
    Incoming → Option (Datum → Datum)
  | asIs => if t.scalar? = some w.scalar then some id else none
  | castTo type =>
    if type.scalar? = t.scalar? then t.scalar?.map fun s => w.scalar.convert s else none
  | converted => (vocabulary.conversion? t).map Conversion.ofWire

/-! ### Statements -/

/-- What code works on. -/
structure State where
  memory : Memory
  /-- The bytes written so far. -/
  buffer : List UInt8
  input : List UInt8
  /-- The number of bytes of the input that were used. -/
  offset : Nat

/-- How code ends. -/
inductive Exit where
  | done (s : State)
  /-- A decoder fails, with the memory as it is then. -/
  | fault (e : Fault) (m : Memory)
  /-- Two values differ. -/
  | unequal
  /-- There is nothing that the code could do. -/
  | stuck

namespace Exit

/-- Goes on with `next`, unless something ended the code. -/
def andThen : Exit → (State → Exit) → Exit
  | done s, next => next s
  | fault e m, _ => fault e m
  | unequal, _ => unequal
  | stuck, _ => stuck

@[simp]
theorem done_andThen (s : State) (next : State → Exit) : (done s).andThen next = next s := rfl

@[simp]
theorem fault_andThen (e : Fault) (m : Memory) (next : State → Exit) :
    (fault e m).andThen next = fault e m := rfl

/-- Drops the names that were bound since the memory had the given size. -/
def leave (size : Nat) : Exit → Exit
  | done s => done { s with memory := s.memory.leave size }
  | fault e m => fault e (m.leave size)
  | unequal => unequal
  | stuck => stuck

end Exit

namespace State

/-- The bytes that are left. -/
def rest (s : State) : List UInt8 := s.input.drop s.offset

/-- Appends bytes to the buffer. -/
def append (s : State) (bs : List UInt8) : State := { s with buffer := s.buffer ++ bs }

/-- Binds a local name. -/
def bind (s : State) (x : Local) (b : Binding) : State :=
  { s with memory := (.inner x, b) :: s.memory }

/-- Stores a value in a place. -/
def store (s : State) (p : Place) (v : Value) : Exit :=
  if p.owned then .done { s with memory := p.put s.memory v } else .stuck

/-- Goes on behind the bytes that were used, or fails, with the memory as it is then. -/
def finish (s : State) (result : Except Fault Nat) (m : Memory) : Exit :=
  match result with
  | .ok n => .done { s with memory := m, offset := s.offset + n }
  | .error e => .fault e m

/-- Takes over what a decoder answers for a place. -/
def settle (s : State) (p : Place) (o : Outcome) : Exit :=
  if p.owned then s.finish o.result (p.put s.memory o.receiver) else .stuck

/-- Goes on with what a reader takes off the input. -/
def take {α : Type} (s : State) (r : Reader α) (next : α → State → Exit) : Exit :=
  match r s.rest with
  | .error e => .fault e s.memory
  | .ok (a, n) => next a { s with offset := s.offset + n }

/-- Goes on if a comparison holds. -/
def require (s : State) (holds : Bool) : Exit := if holds then .done s else .unequal

/-- Binds some names, the innermost first. -/
def enter (s : State) (names : Memory) : State := { s with memory := names ++ s.memory }

/-- Runs code in a scope of its own, in which some names are bound. -/
def within (s : State) (names : Memory) (body : State → Exit) : Exit :=
  (body (s.enter names)).leave s.memory.length

/-- Runs code for one thing after the other. -/
def each {α : Type} (step : α → State → Exit) : List α → State → Exit
  | [], s => .done s
  | a :: as, s => (step a s).andThen (each step as)

end State

/-- Runs statements. -/
def Code.run (vocabulary : Vocabulary) (Γ : Schema) : Code → State → Exit
  | skip, s => .done s
  | seq first second, s => (first.run vocabulary Γ s).andThen (second.run vocabulary Γ)
  | block body, s => s.within [] (body.run vocabulary Γ)
  | bindRef x p, s =>
    match p.read s.memory with
    | some (t, v) => .done (s.bind x (.reference t v))
    | none => .stuck
  | forIndex i p body, s =>
    match p.read s.memory with
    | some (_, .items vs) =>
      State.each (fun j s => s.within [(.inner i, .number j)] (body.run vocabulary Γ))
        (List.range vs.length) s
    | _ => .stuck
  -- writing
  | encodeNested p, s =>
    match p.shaped? vocabulary s.memory with
    | some (shape, v) => .done { s with buffer := Γ.encodeOnto .generic shape v s.buffer }
    | none => .stuck
  | write w e, s =>
    match e.datum? vocabulary s.memory w with
    | some d => .done (s.append (w.write d))
    | none => .stuck
  | writeBytes p, s =>
    match p.read s.memory with
    | some (_, .items vs) => .done (s.append (Marshal.writeBytes (vs.map Value.toByte)))
    | _ => .stuck
  | writeLength p, s =>
    match p.count? s.memory with
    | some n => .done (s.append (Varint.write n))
    | none => .stuck
  | writePresence there, s => .done (s.append [if there then 1 else 0])
  | forEntries k v p body, s =>
    match p.read s.memory with
    | some (t, .entries es) =>
      match t.part? 0, t.part? 1 with
      | some tk, some tv =>
        State.each
          (fun e s =>
            s.within [(.inner v, .reference tv e.2), (.inner k, .reference tk e.1)]
              (body.run vocabulary Γ))
          es s
      | _, _ => .stuck
    | _ => .stuck
  | caseOption p x there absent, s =>
    match p.read s.memory with
    | some (t, .present v) =>
      match t.part? 0 with
      | some u => s.within [(.inner x, .reference u v)] (there.run vocabulary Γ)
      | none => .stuck
    | some (_, .absent) => s.within [] (absent.run vocabulary Γ)
    | _ => .stuck
  -- reading
  | decodeNested p, s =>
    match p.shaped? vocabulary s.memory with
    | some (shape, v) => s.settle p (Γ.decode .generic shape v s.rest)
    | none => .stuck
  | readInto w p e, s =>
    match p.read s.memory with
    | some (t, _) =>
      match e.stored? vocabulary w t with
      | some f => s.take w.read fun d s => s.store p (.datum (f d))
      | none => .stuck
    | none => .stuck
  | readBytesInto p, s =>
    match p.read s.memory with
    | some (_, .items _) => s.take readBytes fun bs s => s.store p (Value.ofBytes bs)
    | _ => .stuck
  | readLength x, s => s.take Varint.read fun n s => .done (s.bind x (.number n.toNat))
  | checkLength x, s =>
    match s.memory.number? x with
    | some n => if atLeast n s.rest then .done s else .fault .truncated s.memory
    | none => .stuck
  | clear p, s =>
    match p.read s.memory with
    | some (_, .items _) => s.store p (.items [])
    | some (_, .entries _) => s.store p (.entries [])
    | _ => .stuck
  | times x body, s =>
    match s.memory.number? x with
    | some n => State.each (fun _ s => s.within [] (body.run vocabulary Γ)) (List.range n) s
    | none => .stuck
  | bindFresh x type e, s =>
    match e.value? vocabulary Γ type with
    | some v => .done (s.bind x (.value type v))
    | none => .stuck
  | push p x, s =>
    match p.read s.memory, s.memory.value? x with
    | some (_, .items vs), some v => s.store p (.items (vs ++ [v]))
    | _, _ => .stuck
  | insert p k v, s =>
    match p.read s.memory, s.memory.value? k, s.memory.value? v with
    | some (t, .entries es), some a, some b =>
      match t.part? 0 with
      | some tk => s.store p (.entries (Entries.insert (vocabulary.compareKeys tk) a b es))
      | none => .stuck
    | _, _, _ => .stuck
  | casePresence absent there, s =>
    s.take Reader.byte fun presence s =>
      if presence = 0 then s.within [] (absent.run vocabulary Γ)
      else s.within [] (there.run vocabulary Γ)
  | storeAbsent p, s => s.store p .absent
  | storePresent p x, s =>
    match s.memory.value? x with
    | some v => s.store p (.present v)
    | none => .stuck
  | store p x, s =>
    match s.memory.value? x with
    | some v => s.store p v
    | none => .stuck
  -- comparing
  | requireSame p q, s =>
    match p.datum? s.memory, q.datum? s.memory with
    | some (t, a), some (_, b) =>
      match vocabulary.same? t with
      | some same => s.require (same a b)
      | none => .stuck
    | _, _ => .stuck
  | requireEqual p q, s =>
    match p.shaped? vocabulary s.memory, q.read s.memory with
    | some (shape, a), some (_, b) => s.require (Γ.equals .generic shape a b)
    | _, _ => .stuck
  | requireSameLength p q, s =>
    match p.count? s.memory, q.count? s.memory with
    | some n, some k => s.require (n == k)
    | _, _ => .stuck
  | bindEntry x p k, s =>
    match p.read s.memory, (Place.deref k).read s.memory with
    | some (t, .entries es), some (tk, a) =>
      match t.part? 1, Entries.find? (vocabulary.compareKeys tk) a es with
      | some tv, some b => .done (s.bind x (.reference tv b))
      | some _, none => .unequal
      | none, _ => .stuck
    | _, _ => .stuck
  | caseBoth p q l r there, s =>
    match p.read s.memory, q.read s.memory with
    | some (t, .present a), some (_, .present b) =>
      match t.part? 0 with
      | some u =>
        s.within [(.inner r, .reference u b), (.inner l, .reference u a)] (there.run vocabulary Γ)
      | none => .stuck
    | some (_, .absent), some (_, .absent) => .done s
    | some (_, .present _), some (_, .absent) | some (_, .absent), some (_, .present _) => .unequal
    | _, _ => .stuck

/-! ### Laws of the memory -/

namespace Memory

variable {m : Memory} {name : Name} {x : Local} {t : TypeExpr} {v w : Value}

theorem lookup_cons_of_ne {x y : Name} (h : y ≠ x) (b : Binding) (m : Memory) :
    List.lookup y ((x, b) :: m) = m.lookup y := by
  rw [List.lookup_cons, beq_eq_false_iff_ne.2 h]

theorem assign_cons_of_ne {x : Name} (h : name ≠ x) (b : Binding) (v : Value) (m : Memory) :
    assign name v ((x, b) :: m) = (x, b) :: m.assign name v := if_neg h

theorem lookup_assign (name y : Name) (v : Value) (m : Memory) :
    (m.assign name v).lookup y =
      if y = name then (m.lookup y).map (Binding.store v) else m.lookup y := by
  induction m with
  | nil => simp [assign]
  | cons e m ih =>
    obtain ⟨x, b⟩ := e
    by_cases hx : name = x
    · subst hx
      rw [assign, if_pos rfl]
      split_ifs with hy
      · subst hy
        simp
      · rw [lookup_cons_of_ne hy, lookup_cons_of_ne hy]
    · rw [assign_cons_of_ne hx]
      by_cases hy : y = x
      · subst hy
        simp [Ne.symm hx]
      · rw [lookup_cons_of_ne hy, lookup_cons_of_ne hy, ih]

@[simp]
theorem number?_assign (name : Name) (v : Value) (m : Memory) (x : Local) :
    (m.assign name v).number? x = m.number? x := by
  have hstore (b : Binding) : (b.store v).number? = b.number? := by cases b <;> rfl
  rw [number?, number?, lookup_assign]
  split_ifs
  · cases m.lookup (.inner x) <;> simp [hstore]
  · rfl

@[simp]
theorem length_assign (name : Name) (v : Value) (m : Memory) :
    (m.assign name v).length = m.length := by
  induction m with
  | nil => rfl
  | cons e m ih =>
    rw [assign]
    split_ifs <;> simp [ih]

theorem assign_assign (name : Name) (v w : Value) (m : Memory) :
    (m.assign name v).assign name w = m.assign name w := by
  induction m with
  | nil => rfl
  | cons e m ih =>
    obtain ⟨x, b⟩ := e
    by_cases hx : name = x
    · cases b <;> simp [assign, hx, Binding.store]
    · simp [assign, hx, ih]

theorem value?_assign (h : (m.lookup name).bind Binding.value? = some (t, v)) (w : Value) :
    ((m.assign name w).lookup name).bind Binding.value? = some (t, w) := by
  rw [lookup_assign, if_pos rfl]
  obtain ⟨b, hb, hv⟩ := Option.bind_eq_some_iff.1 h
  cases b <;> cases hv
  rw [hb]
  rfl

theorem assign_self (h : (m.lookup name).bind Binding.value? = some (t, v)) :
    m.assign name v = m := by
  induction m with
  | nil => rfl
  | cons e m ih =>
    obtain ⟨x, b⟩ := e
    by_cases hx : name = x
    · subst hx
      rw [List.lookup_cons_self] at h
      cases b <;> cases h
      simp [assign, Binding.store]
    · rw [lookup_cons_of_ne hx] at h
      rw [assign_cons_of_ne hx, ih h]

theorem leave_append (bs m : Memory) : leave m.length (bs ++ m) = m := by
  simp [leave]

theorem leave_cons (e : Name × Binding) (m : Memory) : leave m.length (e :: m) = m :=
  leave_append [e] m

end Memory

namespace Place

variable {m : Memory} {p : Place} {i x : Local} {t u : TypeExpr} {v w : Value} {n : Nat}

theorem datum?_of_read {d : Datum} (h : p.read m = some (t, .datum d)) :
    p.datum? m = some (t, d) := by
  rw [datum?, h]

theorem read_item_eq_some : (item p i).read m = some (u, v) ↔
    ∃ t vs j, p.read m = some (t, .items vs) ∧ m.number? i = some j ∧ t.part? 0 = some u ∧
      vs[j]? = some v := by
  constructor
  · intro h
    rw [read] at h
    split at h
    · rename_i t vs j ht hj
      split at h
      · rename_i u' v' hu hv
        cases h
        exact ⟨t, vs, j, ht, hj, hu, hv⟩
      · cases h
    · cases h
  · rintro ⟨t, vs, j, ht, hj, hu, hv⟩
    simp only [read, ht, hj, hu, hv]

theorem put_item {vs : List Value} {j : Nat} (h : p.read m = some (t, .items vs))
    (hj : m.number? i = some j) (w : Value) :
    (item p i).put m w = p.put m (.items (vs.set j w)) := by
  simp only [put, h, hj]

@[simp]
theorem number?_put (m : Memory) (p : Place) (v : Value) (x : Local) :
    (p.put m v).number? x = m.number? x := by
  induction p generalizing v with
  | root | var => exact Memory.number?_assign _ _ _ _
  | deref => rfl
  | item p i ih =>
    rw [put]
    split
    · exact ih _
    · rfl

@[simp]
theorem length_put (m : Memory) (p : Place) (v : Value) : (p.put m v).length = m.length := by
  induction p generalizing v with
  | root | var => exact Memory.length_assign _ _ _
  | deref => rfl
  | item p i ih =>
    rw [put]
    split
    · exact ih _
    · rfl

/-- What is put in a place does not change how many names there are. -/
theorem leave_append_put (names m : Memory) (p : Place) (v : Value) :
    Memory.leave m.length (names ++ p.put m v) = p.put m v := by
  rw [← length_put m p v, Memory.leave_append]

theorem leave_cons_put (e : Name × Binding) (m : Memory) (p : Place) (v : Value) :
    Memory.leave m.length (e :: p.put m v) = p.put m v :=
  leave_append_put [e] m p v

theorem read_put (ho : p.owned = true) (h : p.read m = some (t, v)) (w : Value) :
    p.read (p.put m w) = some (t, w) := by
  induction p generalizing t v w with
  | root | var => exact Memory.value?_assign h w
  | deref => cases ho
  | item p i ih =>
    obtain ⟨t', vs, j, ht, hj, hu, hv⟩ := read_item_eq_some.1 h
    have hlt : j < vs.length := (List.getElem?_eq_some_iff.1 hv).1
    rw [put_item ht hj]
    exact read_item_eq_some.2
      ⟨t', vs.set j w, j, ih ho ht _, by rw [number?_put, hj], hu, List.getElem?_set_self hlt⟩

/-- The last value put in a place is the one that counts. -/
theorem put_put (ho : p.owned = true) (h : p.read m = some (t, v)) (w w' : Value) :
    p.put (p.put m w) w' = p.put m w' := by
  induction p generalizing t v w w' with
  | root | var => exact Memory.assign_assign _ _ _ _
  | deref => cases ho
  | item p i ih =>
    obtain ⟨t', vs, j, ht, hj, -, -⟩ := read_item_eq_some.1 h
    have hput := read_put (p := p) ho ht (.items (vs.set j w))
    rw [put_item ht hj, put_item ht hj, put_item hput ((number?_put m p _ i).trans hj), ih ho ht,
      List.set_set]

theorem put_self (h : p.read m = some (t, v)) : p.put m v = m := by
  induction p generalizing t v with
  | root | var => exact Memory.assign_self h
  | deref => rfl
  | item p i ih =>
    obtain ⟨t', vs, j, ht, hj, -, hv⟩ := read_item_eq_some.1 h
    obtain ⟨hlt, rfl⟩ := List.getElem?_eq_some_iff.1 hv
    rw [put_item ht hj, List.set_getElem_self]
    exact ih ht

/-- The local names in the place are bound less than `n` containers deep. -/
def Under (n : Nat) : Place → Prop
  | root _ => True
  | var x | deref x => x.depth < n
  | item p i => p.Under n ∧ i.depth < n

theorem Under.succ (h : p.Under n) : p.Under (n + 1) := by
  induction p with
  | root => trivial
  | var | deref => exact Nat.lt_succ_of_lt h
  | item p i ih => exact ⟨ih h.1, Nat.lt_succ_of_lt h.2⟩

theorem under_var (a : Family) (n : Nat) : (var ⟨a, n⟩).Under (n + 1) := Nat.lt_succ_self n

theorem under_deref (a : Family) (n : Nat) : (deref ⟨a, n⟩).Under (n + 1) := Nat.lt_succ_self n

theorem Under.item (h : p.Under n) (a : Family) : (Place.item p ⟨a, n⟩).Under (n + 1) :=
  ⟨h.succ, Nat.lt_succ_self n⟩

theorem inner_ne_of_lt {y : Local} (hx : n ≤ x.depth) (hy : y.depth < n) :
    Name.inner y ≠ .inner x := by
  rintro ⟨⟩
  omega

/-- A name that is bound deeper changes nothing about a place. -/
theorem read_cons (hp : p.Under n) (hx : n ≤ x.depth) (b : Binding) (m : Memory) :
    p.read ((.inner x, b) :: m) = p.read m := by
  have hlookup {y : Local} (hy : y.depth < n) :
      List.lookup (.inner y) ((.inner x, b) :: m) = m.lookup (.inner y) :=
    Memory.lookup_cons_of_ne (inner_ne_of_lt hx hy) b m
  induction p with
  | root => rfl
  | var | deref => simp only [read, hlookup hp]
  | item p i ih => simp only [read, Memory.number?, ih hp.1, hlookup hp.2]

theorem read_var_head (x : Local) (t : TypeExpr) (v : Value) (m : Memory) :
    (var x).read ((.inner x, .value t v) :: m) = some (t, v) := by
  simp [read, Binding.value?]

theorem read_deref_head (x : Local) (t : TypeExpr) (v : Value) (m : Memory) :
    (deref x).read ((.inner x, .reference t v) :: m) = some (t, v) := by
  simp [read, Binding.reference?]

theorem read_var_next {x y : Local} (h : y ≠ x) (b : Binding) (t : TypeExpr) (v : Value)
    (m : Memory) : (var y).read ((.inner x, b) :: (.inner y, .value t v) :: m) = some (t, v) := by
  rw [read, Memory.lookup_cons_of_ne (by simpa using h)]
  exact read_var_head y t v m

theorem read_deref_next {x y : Local} (h : y ≠ x) (b : Binding) (t : TypeExpr) (v : Value)
    (m : Memory) :
    (deref y).read ((.inner x, b) :: (.inner y, .reference t v) :: m) = some (t, v) := by
  rw [read, Memory.lookup_cons_of_ne (by simpa using h)]
  exact read_deref_head y t v m

theorem put_var_head (x : Local) (t : TypeExpr) (v w : Value) (m : Memory) :
    (var x).put ((.inner x, .value t v) :: m) w = (.inner x, .value t w) :: m := by
  simp [put, Memory.assign, Binding.store]

theorem put_var_next {x y : Local} (h : y ≠ x) (b : Binding) (t : TypeExpr) (v w : Value)
    (m : Memory) : (var y).put ((.inner x, b) :: (.inner y, .value t v) :: m) w =
      (.inner x, b) :: (.inner y, .value t w) :: m := by
  rw [put, Memory.assign_cons_of_ne (by simpa using h)]
  exact congrArg _ (put_var_head y t v w m)

theorem value?_head (x : Local) (t : TypeExpr) (v : Value) (m : Memory) :
    Memory.value? ((.inner x, .value t v) :: m) x = some v := by
  simp [Memory.value?, Binding.value?]

theorem value?_next {x y : Local} (h : y ≠ x) (b : Binding) (t : TypeExpr) (v : Value)
    (m : Memory) : Memory.value? ((.inner x, b) :: (.inner y, .value t v) :: m) y = some v := by
  rw [Memory.value?, Memory.lookup_cons_of_ne (by simpa using h)]
  exact value?_head y t v m

theorem number?_head (x : Local) (n : Nat) (m : Memory) :
    Memory.number? ((.inner x, .number n) :: m) x = some n := by
  simp [Memory.number?, Binding.number?]

/-- In a loop over a place the index finds the item at its position. -/
theorem read_item_head {vs : List Value} {j : Nat} (hp : p.Under n) (hi : n ≤ i.depth)
    (h : p.read m = some (t, .items vs)) (hu : t.part? 0 = some u) (hv : vs[j]? = some v) :
    (item p i).read ((.inner i, .number j) :: m) = some (u, v) := by
  exact read_item_eq_some.2
    ⟨t, vs, j, (read_cons hp hi _ m).trans h, number?_head i j m, hu, hv⟩

theorem put_cons (hp : p.Under n) (hx : n ≤ x.depth) (b : Binding) (m : Memory) (v : Value) :
    p.put ((.inner x, b) :: m) v = (.inner x, b) :: p.put m v := by
  induction p generalizing v with
  | root | deref => rfl
  | var => exact Memory.assign_cons_of_ne (inner_ne_of_lt hx hp) b v m
  | item p i ih =>
    have hi : Memory.number? ((.inner x, b) :: m) i = m.number? i := by
      rw [Memory.number?, Memory.lookup_cons_of_ne (inner_ne_of_lt hx hp.2), Memory.number?]
    rw [put, put, read_cons hp.1 hx, hi]
    split
    · exact ih hp.1 _
    · rfl

end Place

end Marshal
