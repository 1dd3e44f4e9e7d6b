import Marshal.Tape
import Marshal.Proofs.Wire

/-!
# A tape is a queue

What is written to a tape is read from it in the same order, if every read asks for the kind that
was written.  `Tape.Waiting` says which contents wait on a tape: their bytes, one after the other,
are those from the cursor on.

* Writing puts a content at the end of those that wait (`Tape.Waiting.write`).
* Reading takes the first one, whatever bytes follow it (`Tape.Waiting.read`).
* Where none waits, no kind can be read (`Tape.Waiting.read_nil`).

From these steps `Tape.Waiting.run` follows for a whole run, and the main result
`Tape.queue_exactly` for a run that starts with the cursor at the end.
-/

namespace Marshal

/-! ### Kinds of content -/

namespace Kind

/-- Every kind reads back what it writes, whatever follows. -/
theorem read_write {k : Kind} {c : Content} (h : k.Has c) (rest : List UInt8) :
    k.read (k.write c ++ rest) = .ok (c, (k.write c).length) := by
  cases k with
  | wire w =>
    cases c with
    | datum d => exact (Wire.reads_write _ h).map Content.datum rest (Nat.lt_succ_self _)
    | bytes bs => cases h
  | bytes =>
    cases c with
    | datum d => cases h
    | bytes bs => exact (reads_writeBytes h).map Content.bytes rest (Nat.lt_succ_self _)

/-- Nothing can be read where there are no bytes. -/
theorem read_nil (k : Kind) : k.read [] = .error .truncated := by
  have htake {n : Nat} (hn : 0 < n) : Reader.take n [] = .error .truncated :=
    Reader.take_eq_error.2 ⟨hn, rfl⟩
  cases k with
  | bytes => rfl
  | wire w =>
    refine Reader.map_eq_error.2 ?_
    cases w with
    | fixed t => exact Reader.map_eq_error.2 (htake t.width.bytes_pos)
    | float f => exact Reader.map_eq_error.2 (htake f.bytes_pos)
    | bool | text => rfl
    | var t =>
      cases hs : t.signed with
      | true => rw [Wire.read_signed hs]; rfl
      | false => rw [Wire.read_unsigned hs]; rfl

end Kind

namespace Tape

/-! ### Runs -/

/-- A content together with the kind it is written in. -/
structure Entry where
  kind : Kind
  content : Content

/-- The bytes of an entry. -/
def Entry.bytes (e : Entry) : List UInt8 := e.kind.write e.content

/-- What can be done to a tape. -/
inductive Op where
  | write (e : Entry)
  | read (k : Kind)

namespace Op

/-- What the operation writes. -/
def entry? : Op → Option Entry
  | write e => some e
  | read _ => none

/-- The kind that the operation asks for. -/
def kind? : Op → Option Kind
  | write _ => none
  | read k => some k

/-- What operations write, in order. -/
def written (ops : List Op) : List Entry := ops.filterMap entry?

/-- The kinds that operations ask for, in order. -/
def asked (ops : List Op) : List Kind := ops.filterMap kind?

@[simp] theorem written_nil : written [] = [] := rfl

@[simp] theorem written_write (e : Entry) (ops : List Op) :
    written (write e :: ops) = e :: written ops := rfl

@[simp] theorem written_read (k : Kind) (ops : List Op) :
    written (read k :: ops) = written ops := rfl

@[simp] theorem asked_nil : asked [] = [] := rfl

@[simp] theorem asked_write (e : Entry) (ops : List Op) : asked (write e :: ops) = asked ops := rfl

@[simp] theorem asked_read (k : Kind) (ops : List Op) :
    asked (read k :: ops) = k :: asked ops := rfl

/-- Every content is of the kind it is written in, the reads ask for the kinds that are written, in
the same order, and at no time have there been more reads than writes. -/
structure InTurn (ops : List Op) : Prop where
  has : ∀ e ∈ written ops, e.kind.Has e.content
  same : asked ops <+: (written ops).map Entry.kind
  behind : ∀ i, (asked (ops.take i)).length ≤ (written (ops.take i)).length

end Op

/-- The tape after an operation. -/
def act (t : Tape) : Op → Tape
  | .write e => t.write e.kind e.content
  | .read k => (t.read k).2

/-- The tape after operations. -/
def run (t : Tape) (ops : List Op) : Tape := ops.foldl act t

/-- What the reads among operations answer, in order. -/
def answers (t : Tape) : List Op → List (Except Fault (Content × Nat))
  | [] => []
  | .write e :: ops => (t.act (.write e)).answers ops
  | .read k :: ops => (t.read k).1 :: (t.act (.read k)).answers ops

/-- The answer to a read that finds an entry. -/
def found (e : Entry) : Except Fault (Content × Nat) := .ok (e.content, e.bytes.length)

/-! ### One operation -/

/-- The entries wait on the tape: from the cursor on there are their bytes and no others. -/
structure Waiting (t : Tape) (es : List Entry) : Prop where
  has : ∀ e ∈ es, e.kind.Has e.content
  within : t.cursor ≤ t.bytes.length
  pending : t.pending = es.flatMap Entry.bytes

variable {t : Tape} {e : Entry} {es : List Entry}

theorem waiting_nil (h : t.cursor = t.bytes.length) : t.Waiting [] :=
  ⟨List.forall_mem_nil _, h.le, List.drop_eq_nil_of_le h.ge⟩

/-- A content that is written waits behind the others. -/
theorem Waiting.write (h : t.Waiting es) (he : e.kind.Has e.content) :
    (t.act (.write e)).Waiting (es ++ [e]) where
  has := by
    intro e' he'
    rcases List.mem_append.1 he' with he' | he'
    · exact h.has e' he'
    · exact List.mem_singleton.1 he' ▸ he
  within := by
    simp only [act, Tape.write, List.length_append]
    exact Nat.le_add_right_of_le h.within
  pending := by
    have hdrop : (t.act (.write e)).pending = t.pending ++ e.bytes :=
      List.drop_append_of_le_length h.within
    rw [hdrop, h.pending, List.flatMap_append, List.flatMap_singleton]

/-- The first content that waits is read, whatever waits behind it. -/
theorem Waiting.read (h : t.Waiting (e :: es)) :
    (t.read e.kind).1 = found e ∧ (t.act (.read e.kind)).Waiting es := by
  have hread : e.kind.read t.pending = found e := by
    rw [h.pending, List.flatMap_cons]
    exact Kind.read_write (h.has e List.mem_cons_self) _
  have hboth : t.read e.kind = (found e, { t with cursor := t.cursor + e.bytes.length }) := by
    simp only [Tape.read, hread, found]
  have hlen := congrArg List.length h.pending
  simp only [Tape.pending, List.length_drop, List.flatMap_cons, List.length_append] at hlen
  refine ⟨congrArg Prod.fst hboth, ?_⟩
  rw [act, hboth]
  refine ⟨fun e' he' => h.has e' (List.mem_cons_of_mem _ he'), ?_, ?_⟩
  · have := h.within
    change t.cursor + e.bytes.length ≤ t.bytes.length
    omega
  · change t.bytes.drop (t.cursor + e.bytes.length) = _
    rw [← List.drop_drop]
    change t.pending.drop _ = _
    rw [h.pending, List.flatMap_cons, List.drop_left]

/-- Where nothing waits nothing is read, and the tape stays as it is. -/
theorem Waiting.read_nil (h : t.Waiting []) (k : Kind) : t.read k = (.error .truncated, t) := by
  have hnone : k.read t.pending = .error .truncated := by
    rw [h.pending]
    exact k.read_nil
  simp only [Tape.read, hnone]

/-! ### Whole runs -/

theorem bytes_act_read (t : Tape) (k : Kind) : (t.act (.read k)).bytes = t.bytes := by
  simp only [act, Tape.read]
  split <;> rfl

/-- Whatever is done to a tape, its bytes stay and others are appended. -/
theorem bytes_run (t : Tape) (ops : List Op) :
    (t.run ops).bytes = t.bytes ++ (Op.written ops).flatMap Entry.bytes := by
  induction ops generalizing t with
  | nil => simp [run]
  | cons op ops ih =>
    rw [run, List.foldl_cons, ← run, ih]
    cases op with
    | write e => simp [act, Tape.write, Entry.bytes]
    | read k => rw [bytes_act_read, Op.written_read]

/-- The reads of a run find the contents in the order in which they wait or are written, and those
that are left wait at the end. -/
theorem Waiting.run {ops : List Op} (h : t.Waiting es)
    (has : ∀ e ∈ Op.written ops, e.kind.Has e.content)
    (same : Op.asked ops <+: (es ++ Op.written ops).map Entry.kind)
    (behind : ∀ i, (Op.asked (ops.take i)).length ≤ es.length + (Op.written (ops.take i)).length) :
    t.answers ops = ((es ++ Op.written ops).take (Op.asked ops).length).map found ∧
      (t.run ops).Waiting ((es ++ Op.written ops).drop (Op.asked ops).length) := by
  induction ops generalizing t es with
  | nil => simpa [answers, Tape.run] using h
  | cons op ops ih =>
    cases op with
    | write e =>
      have hnext := h.write (has e List.mem_cons_self)
      rw [Op.written_write, List.append_cons] at same ⊢
      refine ih hnext (fun e' he' => has e' (List.mem_cons_of_mem e he')) same fun i => ?_
      have hi := behind (i + 1)
      rw [List.take_succ_cons, Op.asked_write, Op.written_write, List.length_cons] at hi
      rw [List.length_append, List.length_singleton]
      omega
    | read k =>
      cases es with
      | nil => exact absurd (behind 1) (by simp)
      | cons e es =>
        obtain ⟨rfl, same'⟩ : k = e.kind ∧ _ := List.cons_prefix_cons.1 same
        obtain ⟨hfound, hnext⟩ := h.read
        obtain ⟨hanswers, hrest⟩ := ih hnext has same' fun i => by
          have hi := behind (i + 1)
          rw [List.take_succ_cons, Op.asked_read, Op.written_read, List.length_cons,
            List.length_cons] at hi
          omega
        refine ⟨?_, hrest⟩
        change (t.read e.kind).1 :: _ = found e :: _
        rw [hfound, hanswers]
        rfl

/-- What is in turn up to the end is in turn up to any moment. -/
theorem Op.InTurn.take {ops : List Op} (h : Op.InTurn ops) (i : Nat) : Op.InTurn (ops.take i) where
  has e he := h.has e (((List.take_sublist i ops).filterMap _).subset he)
  same := by
    have hasked : Op.asked (ops.take i) <+: Op.asked ops := (List.take_prefix i ops).filterMap _
    have hwritten : (Op.written (ops.take i)).map Entry.kind <+: (Op.written ops).map Entry.kind :=
      ((List.take_prefix i ops).filterMap _).map _
    refine List.prefix_of_prefix_length_le (hasked.trans h.same) hwritten ?_
    rw [List.length_map]
    exact h.behind i
  behind j := by
    rw [List.take_take]
    exact h.behind _

/-- **A tape is a queue.**  Take a tape with the cursor at its end and operations in turn.  Each
read answers with the content that was written at its position and the number of its bytes.  At
every moment of the run, the bytes are those at the start and after them all that was written, the
cursor stands behind as many contents as were read, and if these are all, no kind can be read: the
input is truncated, and the tape stays as it is. -/
theorem queue_exactly {ops : List Op} (ht : t.cursor = t.bytes.length) (h : Op.InTurn ops) :
    t.answers ops = ((Op.written ops).take (Op.asked ops).length).map found ∧
      ∀ i, (t.run (ops.take i)).bytes =
          t.bytes ++ (Op.written (ops.take i)).flatMap Entry.bytes ∧
        (t.run (ops.take i)).cursor =
          t.cursor + (((Op.written (ops.take i)).take (Op.asked (ops.take i)).length).flatMap
            Entry.bytes).length ∧
        ((Op.asked (ops.take i)).length = (Op.written (ops.take i)).length → ∀ k,
          (t.run (ops.take i)).read k = (.error .truncated, t.run (ops.take i))) := by
  have hrun {ops : List Op} (h : Op.InTurn ops) :=
    (waiting_nil ht).run h.has h.same (by simpa using h.behind)
  refine ⟨(hrun h).1, fun i => ?_⟩
  obtain ⟨-, hleft⟩ := hrun (h.take i)
  generalize ops.take i = now at hleft ⊢
  have hbytes := t.bytes_run now
  refine ⟨hbytes, ?_, fun hall => ?_⟩
  · have hwithin := hleft.within
    have hpending := congrArg List.length hleft.pending
    rw [List.nil_append, Tape.pending, List.length_drop] at hpending
    have hsplit := congrArg (fun es : List Entry => (es.flatMap Entry.bytes).length)
      (List.take_append_drop (Op.asked now).length (Op.written now))
    simp only [List.flatMap_append, List.length_append] at hsplit
    rw [hbytes, List.length_append] at hwithin hpending
    omega
  · rw [List.nil_append, List.drop_eq_nil_of_le hall.ge] at hleft
    exact hleft.read_nil

/-- A number, a text, a number that is no number and two bytes, read as soon as another was
written. -/
def staggered : List Op :=
  [.write ⟨.wire (.var ⟨true, .w16⟩), .datum (.int (-300))⟩,
    .write ⟨.wire .text, .datum (.text "hé")⟩, .read (.wire (.var ⟨true, .w16⟩)),
    .write ⟨.wire (.float .single), .datum (.float 0x7fc00001)⟩, .read (.wire .text),
    .write ⟨.bytes, .bytes [0x80, 0xff]⟩, .read (.wire (.float .single)), .read .bytes]

theorem queue_exactly_staggered :
    (⟨[9, 9], 2⟩ : Tape).answers staggered =
        [.ok (.datum (.int (-300)), 2), .ok (.datum (.text "hé"), 4),
          .ok (.datum (.float 0x7fc00001), 4), .ok (.bytes [0x80, 0xff], 3)] ∧
      ((⟨[9, 9], 2⟩ : Tape).run staggered).cursor = 15 ∧
      ∀ k, ((⟨[9, 9], 2⟩ : Tape).run staggered).read k =
        (.error .truncated, (⟨[9, 9], 2⟩ : Tape).run staggered) := by
  have hturn : Op.InTurn staggered := by
    refine ⟨?_, by decide, fun i => ?_⟩
    · simp only [staggered, Op.written_write, Op.written_read, Op.written_nil, List.forall_mem_cons]
      exact ⟨(by decide : IntType.InRange ⟨true, .w16⟩ (-300)),
        (by decide : "hé".utf8ByteSize < Width.w64.modulus),
        (by decide : 0x7fc00001 < 2 * FloatType.single.signPlace),
        (by decide : 2 < Width.w64.modulus), List.forall_mem_nil _⟩
    · rcases i with _ | _ | _ | _ | _ | _ | _ | _ | i <;> simp [staggered]
  obtain ⟨hanswers, hall⟩ := queue_exactly (t := ⟨[9, 9], 2⟩) rfl hturn
  obtain ⟨-, hcursor, hnone⟩ := hall 8
  exact ⟨hanswers.trans (by decide +kernel), hcursor.trans (by decide +kernel), hnone (by decide)⟩

end Tape

end Marshal
