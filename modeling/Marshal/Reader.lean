import Marshal.Fault

/-!
# Readers

A `Reader` takes a value off the front of the input and counts the bytes it used.  A reader never
sees where it stands in a larger input: what follows it is read from `bs.drop n`.
-/

namespace Marshal

/-- A reader yields a value with the number of bytes it used, or a fault. -/
abbrev Reader (α : Type) := List UInt8 → Except Fault (α × Nat)

/-- The input has at least `k` bytes. -/
def atLeast : (k : Nat) → List UInt8 → Bool
  | 0, _ => true
  | _ + 1, [] => false
  | k + 1, _ :: bs => atLeast k bs

theorem atLeast_iff {k : Nat} {bs : List UInt8} : atLeast k bs ↔ k ≤ bs.length := by
  induction k generalizing bs with
  | zero => simp [atLeast]
  | succ k ih => cases bs <;> simp [atLeast, ih]

namespace Reader

variable {α β : Type}

/-- Reads nothing. -/
def pure (a : α) : Reader α := fun _ => .ok (a, 0)

/-- Reads as `r` does and applies `f` to the value. -/
def map (f : α → β) (r : Reader α) : Reader β := fun bs =>
  match r bs with
  | .error e => .error e
  | .ok (a, n) => .ok (f a, n)

/-- Reads as `r` does, then reads `next` from the bytes after it.  The counts add up. -/
def andThen (r : Reader α) (next : α → Reader β) : Reader β := fun bs =>
  match r bs with
  | .error e => .error e
  | .ok (a, n) =>
    match next a (bs.drop n) with
    | .error e => .error e
    | .ok (b, m) => .ok (b, n + m)

/-- Reads as `r` does and refuses a value that `f` refuses. -/
def refine (r : Reader α) (f : α → Except Fault β) : Reader β := fun bs =>
  match r bs with
  | .error e => .error e
  | .ok (a, n) =>
    match f a with
    | .error e => .error e
    | .ok b => .ok (b, n)

/-- The first byte. -/
def byte : Reader UInt8
  | [] => .error .truncated
  | b :: _ => .ok (b, 1)

/-- The first `k` bytes. -/
def take (k : Nat) : Reader (List UInt8) := fun bs =>
  if atLeast k bs then .ok (bs.take k, k) else .error .truncated

end Reader

end Marshal
