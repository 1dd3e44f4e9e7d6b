import Marshal.BuildError

/-!
# Events

While a declaration is worked on, events are reported.  A `Traced` computation has a result and the
events up to it; the events before an error are kept.
-/

namespace Marshal

/-- Something worth reporting. -/
inductive Event where
  /-- A field of a record was built. -/
  | builtField (field kind type : String)
  /-- An alias was built. -/
  | builtAlias (ident type : String)
  /-- A member of a union was given its tag. -/
  | assignedTag (union member : String) (tag : Nat)
  /-- Code is about to be emitted for an item. -/
  | generating (item role : String) (fields : Nat)
  /-- Code is about to be emitted for a member of a union. -/
  | emittingMember (union variant : String) (tag : Nat)
deriving DecidableEq, Repr

/-- The two levels of detail. -/
inductive Level where
  | debug
  | trace
deriving DecidableEq, Repr

namespace Event

/-- How detailed an event is: what concerns a single member of a union is a detail. -/
def level : Event → Level
  | builtField .. | builtAlias .. | generating .. => .debug
  | assignedTag .. | emittingMember .. => .trace

/-- The text of an event. -/
def message : Event → String
  | builtField .. => "built record field"
  | builtAlias .. => "built alias"
  | assignedTag .. => "assigned union tag"
  | generating .. => "generating cod implementation"
  | emittingMember .. => "emitting member"

end Event

/-- A result with the events up to it. -/
structure Traced (α : Type) where
  events : List Event
  result : Except BuildError α

namespace Traced

variable {α β : Type}

/-- A result without events. -/
def ofExcept (result : Except BuildError α) : Traced α := ⟨[], result⟩

/-- A value. -/
def pure (a : α) : Traced α := ofExcept (.ok a)

/-- An error. -/
def fail (e : BuildError) : Traced α := ofExcept (.error e)

/-- An event. -/
def report (e : Event) : Traced Unit := ⟨[e], .ok ()⟩

/-- Goes on with the value, if there is one. -/
def bind (x : Traced α) (f : α → Traced β) : Traced β :=
  match x.result with
  | .error e => ⟨x.events, .error e⟩
  | .ok a => ⟨x.events ++ (f a).events, (f a).result⟩

end Traced

end Marshal
