import Marshal.Declaration.Basic
import Marshal.BuildError

/-!
# Reading attributes

`Attribute.fold` goes through the entries of the attributes that are read, from left to right, and
stops at the first error.
-/

namespace Marshal

variable {σ : Type}

/-- Goes through the entries of one attribute. -/
def AttrEntry.fold (step : σ → String → AttrValue → Except BuildError σ) :
    σ → List AttrEntry → Except BuildError σ
  | s, [] => .ok s
  | _, .literal :: _ => .error .literalKey
  | s, .keyed key value :: es =>
    match step s key value with
    | .error e => .error e
    | .ok s' => fold step s' es

/-- Goes through the entries of all attributes that are read. -/
def Attribute.fold (step : σ → String → AttrValue → Except BuildError σ) :
    σ → List Attribute → Except BuildError σ
  | s, [] => .ok s
  | s, a :: as =>
    if a.path = Attribute.own then
      match a.body with
      | .bare => .error .attributeWithoutArguments
      | .value => .error .attributeWithValue
      | .entries es =>
        match AttrEntry.fold step s es with
        | .error e => .error e
        | .ok s' => fold step s' as
    else fold step s as

/-- The string after a key that needs one. -/
def AttrValue.string? : AttrValue → Except BuildError String
  | .string s => .ok s
  | .none | .list => .error .expectedEquals
  | .path _ | .number => .error .expectedString

end Marshal
