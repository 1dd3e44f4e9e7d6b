import Marshal.Schema.Decode
import Marshal.Tape

/-!
# Decoding at an offset

The decoders of a schema read what follows a value from `bs.drop n`, and nothing in them can go
wrong that is not a fault.  Here is the same work as a machine does it.  Code that is expanded goes
through its input with a running offset.  A call gets the rest of the input for an input of its own,
and the caller moves its offset on by the number of bytes that the call used.

What can be out of range is checked: an index (`suffix?`), a difference (`left?`), a sum
(`advance?`) and a shift (`shiftUp?`).  A computation that fails such a check has no answer, not even
a fault.  `Schema.walk` is the decoder of a schema in this form.
-/

namespace Marshal

/-! ### Operations with a range -/

/-- Sizes and offsets are machine words, which are below this number. -/
def offsetLimit : Nat := Width.machine.modulus

/-- The input from an offset on. -/
def suffix? (bs : List UInt8) (n : Nat) : Option (List UInt8) :=
  if n ≤ bs.length then some (bs.drop n) else none

/-- How much of the input is left at an offset. -/
def left? (bs : List UInt8) (n : Nat) : Option Nat :=
  if n ≤ bs.length then some (bs.length - n) else none

/-- The offset `k` bytes further on, which must neither overflow nor leave the input. -/
def advance? (bs : List UInt8) (n k : Nat) : Option Nat :=
  if n + k < offsetLimit ∧ n + k ≤ bs.length then some (n + k) else none

/-- The word with its bits moved up by `k` places. -/
def shiftUp? (word : UInt64) (k : Nat) : Option UInt64 :=
  if k < 64 then some (word <<< k.toUInt64) else none

/-- What a checked computation answers: a value with an offset or a fault, unless something was out
of range. -/
abbrev Answer (α : Type) := Option (Except Fault (α × Nat))

namespace Answer

variable {α β : Type}

/-- Goes on with the value and the offset. -/
def andThen (x : Answer α) (next : α → Nat → Answer β) : Answer β :=
  match x with
  | none => none
  | some (.error e) => some (.error e)
  | some (.ok (a, n)) => next a n

/-- Applies `f` to the value. -/
def map (f : α → β) (x : Answer α) : Answer β := x.andThen fun a n => some (.ok (f a, n))

/-- Refuses a value that `f` refuses. -/
def refine (f : α → Except Fault β) (x : Answer α) : Answer β :=
  x.andThen fun a n => some ((f a).map (·, n))

end Answer

/-! ### Scalars -/

/-- Reads on at byte number `i`, whose bits go `shift` places up. -/
def Varint.scanFrom (i shift : Nat) (word : UInt64) : List UInt8 → Answer UInt64
  | [] => some (.error .truncated)
  | b :: bs =>
    if i = maxLength then some (.error .truncated)
    else if b < 0x80 then
      if i = maxLength - 1 ∧ 1 < b then some (.error .truncated)
      else (shiftUp? b.toUInt64 shift).map fun bits => .ok (word ||| bits, i + 1)
    else
      match shiftUp? (b &&& 0x7f).toUInt64 shift with
      | none => none
      | some bits => scanFrom (i + 1) (shift + 7) (word ||| bits) bs

/-- Reads an unsigned number of 64 bits. -/
def Varint.scan (bs : List UInt8) : Answer UInt64 := scanFrom 0 0 0 bs

/-- Reads bytes behind their length.  An end that overflows or lies behind the input is a fault. -/
def scanBytes (bs : List UInt8) : Answer (List UInt8) :=
  (Varint.scan bs).andThen fun length n =>
    if n + length.toNat < offsetLimit ∧ n + length.toNat ≤ bs.length then
      some (.ok ((bs.take (n + length.toNat)).drop n, n + length.toNat))
    else some (.error .truncated)

/-- Reads a datum. -/
def Wire.scan : Wire → List UInt8 → Answer Datum
  | var t, bs =>
    if t.signed then (Varint.scan bs).refine fun u => accept t (Zigzag.decode u).toInt
    else (Varint.scan bs).refine fun u => accept t u.toNat
  | text, bs => (scanBytes bs).refine fun cs => (textOfBytes cs).map .text
  | fixed t, bs => some ((fixed t).read bs)
  | float f, bs => some ((float f).read bs)
  | bool, bs => some (bool.read bs)

/-- Reads a content. -/
def Kind.scan : Kind → List UInt8 → Answer Content
  | wire w, bs => (w.scan bs).map .datum
  | bytes, bs => (scanBytes bs).map .bytes

/-- Reads a scalar that was written as its type is or in the wire kind of a cast. -/
def Scalar.scan (s : Scalar) : Option Wire → List UInt8 → Answer Value
  | none, bs => (s.wire.scan bs).map .datum
  | some w, bs => (w.scan bs).map fun d => .datum (w.scalar.convert s d)

/-! ### Scanners -/

/-- A scanner reads at an offset of the input and answers with the offset behind what it read. -/
abbrev Scanner (α : Type) := List UInt8 → Nat → Answer α

namespace Scanner

variable {α β : Type}

/-- Reads nothing. -/
def pure (a : α) : Scanner α := fun _ n => some (.ok (a, n))

/-- Calls a function for what is left of the input, and moves on by what it used. -/
def call (f : List UInt8 → Answer α) : Scanner α := fun bs n =>
  match suffix? bs n with
  | none => none
  | some rest => (f rest).andThen fun a k => (advance? bs n k).map fun n' => .ok (a, n')

/-- Reads as `s` does and applies `f` to the value. -/
def map (f : α → β) (s : Scanner α) : Scanner β := fun bs n => (s bs n).map f

/-- Reads as `s` does, then goes on at the offset behind. -/
def andThen (s : Scanner α) (next : α → Scanner β) : Scanner β := fun bs n =>
  (s bs n).andThen fun a n' => next a bs n'

/-- The byte at the offset. -/
def byte : Scanner UInt8 := call fun bs => some (Reader.byte bs)

/-- Reads `count` values one after the other, and keeps those before a fault. -/
def collect (s : Scanner α) :
    (count : Nat) → List UInt8 → (n : Nat) → (got : Array α) → Option (Except Fault Nat × Array α)
  | 0, _, n, got => some (.ok n, got)
  | count + 1, bs, n, got =>
    match s bs n with
    | none => none
    | some (.error e) => some (.error e, got)
    | some (.ok (a, n')) => s.collect count bs n' (got.push a)

end Scanner

/-! ### Walkers -/

/-- A walker overwrites a receiver with what it reads at an offset of the input.  Where a decoder
counts the bytes used, it answers with the offset behind them. -/
abbrev Walker := Value → List UInt8 → Nat → Option Outcome

namespace Walker

/-- Leaves the receiver alone and uses no input. -/
def keep : Walker := fun v _ n => some ⟨.ok n, v⟩

/-- Calls a function for what is left of the input, and moves on by what it used. -/
def call (f : Value → List UInt8 → Option Outcome) : Walker := fun v bs n =>
  match suffix? bs n with
  | none => none
  | some rest =>
    match f v rest with
    | none => none
    | some ⟨.error e, w⟩ => some ⟨.error e, w⟩
    | some ⟨.ok k, w⟩ => (advance? bs n k).map fun n' => ⟨.ok n', w⟩

/-- Replaces the receiver by what is read, if it can be read. -/
def ofScanner (s : Scanner Value) : Walker := fun v bs n =>
  match s bs n with
  | none => none
  | some (.error e) => some ⟨.error e, v⟩
  | some (.ok (a, n')) => some ⟨.ok n', a⟩

/-- Reads a value afresh, starting from `blank`. -/
def fresh (w : Walker) (blank : Value) : Scanner Value := fun bs n =>
  match w blank bs n with
  | none => none
  | some ⟨.error e, _⟩ => some (.error e)
  | some ⟨.ok n', v⟩ => some (.ok (v, n'))

/-- Clears the receiver and fills it up with `count` items. -/
def fill {α : Type} (item : Scanner α) (build : List α → Value) (count : Nat) (bs : List UInt8)
    (n : Nat) : Option Outcome :=
  (item.collect count bs n #[]).map fun (result, got) => ⟨result, build got.toList⟩

/-- Reads the number of items, clears the receiver and fills it up.  If the number is `checked`, it
is compared with the number of bytes left. -/
def refill {α : Type} (checked : Bool) (item : Scanner α) (build : List α → Value) : Walker :=
  fun v bs n =>
    match Scanner.call Varint.scan bs n with
    | none => none
    | some (.error e) => some ⟨.error e, v⟩
    | some (.ok (count, n')) =>
      if checked then
        match left? bs n' with
        | none => none
        | some left =>
          if left < count.toNat then some ⟨.error .truncated, v⟩
          else fill item build count.toNat bs n'
      else fill item build count.toNat bs n'

/-- Walks over the values of a list in place, each with its walker, up to the first fault. -/
def slots : List Walker → List Value → List UInt8 → Nat → Option (Except Fault Nat × List Value)
  | w :: ws, v :: vs, bs, n =>
    match w v bs n with
    | none => none
    | some ⟨.error e, v'⟩ => some (.error e, v' :: vs)
    | some ⟨.ok n', v'⟩ => (slots ws vs bs n').map fun (result, vs') => (result, v' :: vs')
  | _, vs, _, n => some (.ok n, vs)

/-- Walks over the parts of the receiver in place, each with its walker. -/
def inPlace (parts? : Value → Option (List Value)) (build : List Value → Value)
    (walkers : List Value → List Walker) : Walker := fun v bs n =>
  match parts? v with
  | some vs => (slots (walkers vs) vs bs n).map fun (result, vs') => ⟨result, build vs'⟩
  | none => keep v bs n

/-- The code of a part: expanded code goes on at the offset, generic code is called. -/
def part : Style → Walker → Walker
  | .expanded, w => w
  | .generic, w => call fun v bs => w v bs 0

end Walker

/-! ### Shapes and declared types -/

/-- Reads an optional value. -/
def scanOption (content : Scanner Value) : Scanner Value :=
  Scanner.byte.andThen fun presence =>
    if presence = 0 then .pure .absent else content.map .present

/-- The walker of a shape, given the functions of the declared types. -/
def Shape.walk (Γ : Schema) (named : String → Value → List UInt8 → Option Outcome) :
    Style → Shape → Walker
  | _, scalar s cast => .ofScanner (.call (s.scan cast))
  | _, converted c w => .ofScanner (.call fun bs => (w.scan bs).map fun d => .datum (c.ofWire d))
  | _, delegate s => .part .generic (s.walk Γ named .generic)
  | _, ref name => .call (named name)
  | style, staged s => .ofScanner ((Walker.part style (s.walk Γ named style)).fresh (Γ.blank s))
  | style, option s =>
    .ofScanner (scanOption ((Walker.part style (s.walk Γ named style)).fresh (Γ.blank s)))
  | style, array _ s =>
    .inPlace Value.items? .items fun vs => vs.map fun _ => .part style (s.walk Γ named style)
  | style, seq s =>
    if style = .expanded ∧ s.isRawByte then
      .ofScanner (.call fun bs => (scanBytes bs).map Value.ofBytes)
    else
      .refill (decide (style = .expanded) && s.takesBytes)
        ((Walker.part style (s.walk Γ named style)).fresh (Γ.blank s)) .items
  | style, map keys key value =>
    .refill (decide (style = .expanded) && (key.takesBytes || value.takesBytes))
      (((Walker.part style (key.walk Γ named style)).fresh (Γ.blank key)).andThen fun k =>
        ((Walker.part style (value.walk Γ named style)).fresh (Γ.blank value)).map fun v => (k, v))
      (fun es => .entries (Entries.ofList es keys.compare))

/-- The walker of a slot: the slots off the wire keep their values. -/
def Slot.walk (Γ : Schema) (named : String → Value → List UInt8 → Option Outcome) (slot : Slot) :
    Walker :=
  if slot.offWire then .keep else slot.shape.walk Γ named .expanded

/-- Reads the member of a union that carries the tag. -/
def Members.scanMember (Γ : Schema) (named : String → Value → List UInt8 → Option Outcome)
    (u : Members) (tag : UInt8) (bs : List UInt8) : Answer Value :=
  match u.member? tag.toNat with
  | none => some (.error (.unknownTag tag))
  | some m =>
    ((m.shape.walk Γ named .expanded).fresh (Γ.blank m.shape) bs 0).map (.member tag.toNat)

/-- Reads what a holder holds. -/
def Members.scanHeld (Γ : Schema) (named : String → Value → List UInt8 → Option Outcome)
    (u : Members) : Scanner Value :=
  Scanner.byte.andThen fun tag =>
    if tag = 0 then .pure .absent else (Scanner.call (u.scanMember Γ named tag)).map .present

/-- The function of a declared type. -/
def Decl.walk (Γ : Schema) (named : String → Value → List UInt8 → Option Outcome) :
    Decl → Value → List UInt8 → Option Outcome
  | record slots, v, bs =>
    Walker.inPlace Value.slots? .record (fun _ => slots.map fun slot => slot.walk Γ named) v bs 0
  | holder u, v, bs => Walker.ofScanner (u.scanHeld Γ named) v bs 0

namespace Schema

/-- The function of a name, with the same count of references as its decoder has. -/
def walkNamed (Γ : Schema) (limit budget : Nat) (name : String) (v : Value) (bs : List UInt8) :
    Option Outcome :=
  if bs.length < limit then Γ.walkNamed bs.length Γ.decls.length name v bs
  else
    match budget, Γ.find? name with
    | budget + 1, some d => d.walk Γ (Γ.walkNamed limit budget) v bs
    | _, _ => some ⟨.error .truncated, v⟩
termination_by (limit, budget)

/-- Decodes a value in place, with every operation checked. -/
def walk (Γ : Schema) (style : Style) (s : Shape) (v : Value) (bs : List UInt8) : Option Outcome :=
  s.walk Γ (Γ.walkNamed bs.length Γ.decls.length) style v bs 0

end Schema

end Marshal
