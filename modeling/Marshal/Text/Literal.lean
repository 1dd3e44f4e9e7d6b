import Marshal.Text.Name

/-!
# Literals

`Literal.skip?` finds the literal at the front of a text and gives what follows it.

* Strings are quoted (`Literal.quoted?`), with escapes, or raw (`Literal.raw?`), without.  They hold
  characters, bytes, or characters other than the zero (`Content`).
* Bytes and characters stand between apostrophes.
* Numbers are decimal fractions (`Literal.decimal?`) or integers in one of four bases
  (`Literal.digits?`).

Every literal may have a name as its suffix.
-/

namespace Marshal

namespace Literal

/-! ### Suffixes -/

/-- What follows a suffix, which need not be there. -/
def afterSuffix : List Char → List Char
  | [] => []
  | c :: cs => if Text.isNameStart c then cs.dropWhile Text.isNameRest else c :: cs

/-- What follows the suffix of a number, which no character of a name may touch. -/
def afterNumber? (cs : List Char) : Option (List Char) :=
  match afterSuffix cs with
  | [] => some []
  | c :: rest => if Text.isNameRest c then none else some (c :: rest)

/-! ### Escapes -/

/-- What a literal is made of. -/
inductive Content where
  | text
  /-- Characters of one byte. -/
  | bytes
  /-- Characters other than the zero, which ends the text. -/
  | terminated
deriving DecidableEq, Repr

/-- The character can stand for itself. -/
def Content.admits : Content → Char → Bool
  | text, _ => true
  | bytes, c => c.toNat < 128
  | terminated, c => c.toNat != 0

/-- The value of a digit up to `f`. -/
def hexValue? (c : Char) : Option Nat :=
  if '0' ≤ c ∧ c ≤ '9' then some (c.toNat - '0'.toNat)
  else if 'a' ≤ c ∧ c ≤ 'f' then some (c.toNat - 'a'.toNat + 10)
  else if 'A' ≤ c ∧ c ≤ 'F' then some (c.toNat - 'A'.toNat + 10)
  else none

/-- The value of an escape by two digits. -/
def Content.admitsByte : Content → Nat → Bool
  | text, n => n < 128
  | bytes, _ => true
  | terminated, n => n != 0

/-- The number of a character in one to six digits, up to the closing brace. -/
def charNumber? : (count value : Nat) → List Char → Option (Nat × List Char)
  | _, _, [] => none
  | count, value, c :: cs =>
    if c = '_' ∧ 0 < count then charNumber? count value cs
    else if c = '\x7d' ∧ 0 < count then
      if value.isValidChar then some (value, cs) else none
    else if count = 6 then none
    else
      match hexValue? c with
      | none => none
      | some d => charNumber? (count + 1) (value * 16 + d) cs

/-- What follows an escape, after its backslash. -/
def escape? (k : Content) : List Char → Option (List Char)
  | 'x' :: a :: b :: cs =>
    match hexValue? a, hexValue? b with
    | some m, some n => if k.admitsByte (m * 16 + n) then some cs else none
    | _, _ => none
  | 'u' :: '\x7b' :: cs =>
    match k, charNumber? 0 0 cs with
    | .text, some (_, rest) => some rest
    | .terminated, some (n, rest) => if n = 0 then none else some rest
    | _, _ => none
  | '0' :: cs => if k = .terminated then none else some cs
  | c :: cs => if "nrt\\'\"".toList.contains c then some cs else none
  | [] => none

/-- What follows the white space after a line that ends in a backslash.  A carriage return needs a
line feed. -/
def continuation? : (afterReturn : Bool) → List Char → Option (List Char)
  | true, '\n' :: cs => continuation? false cs
  | true, _ => none
  | false, [] => none
  | false, c :: cs =>
    if c = '\r' then continuation? true cs
    else if c = ' ' ∨ c = '\t' ∨ c = '\n' then continuation? false cs
    else some (c :: cs)

/-! ### Strings -/

/-- What follows a quoted string, after its first quote.  No more than `bound` characters are
looked at. -/
def quoted? (k : Content) : (bound : Nat) → List Char → Option (List Char)
  | 0, _ | _ + 1, [] => none
  | bound + 1, c :: cs =>
    if c = '"' then some (afterSuffix cs)
    else if c = '\r' then
      match cs with
      | '\n' :: rest => quoted? k bound rest
      | _ => none
    else if c = '\\' then
      match cs with
      | '\n' :: rest => (continuation? false rest).bind (quoted? k bound)
      | '\r' :: rest => (continuation? true rest).bind (quoted? k bound)
      | rest => (escape? k rest).bind (quoted? k bound)
    else if k.admits c then quoted? k bound cs
    else none

/-- What follows a raw string, after its first quote.  It ends at a quote with as many hashes as
there were in front. -/
def rawBody? (k : Content) (hashes : Nat) : List Char → Option (List Char)
  | [] => none
  | '\r' :: '\n' :: cs => rawBody? k hashes cs
  | '\r' :: _ => none
  | c :: cs =>
    if c = '"' ∧ cs.take hashes = List.replicate hashes '#' then some (afterSuffix (cs.drop hashes))
    else if k.admits c then rawBody? k hashes cs
    else none

/-- What follows a raw string, from its hashes on.  There are at most 255 of them. -/
def raw? (k : Content) (cs : List Char) : Option (List Char) :=
  let hashes := (cs.takeWhile (· == '#')).length
  match cs.drop hashes with
  | '"' :: rest => if hashes ≤ 255 then rawBody? k hashes rest else none
  | _ => none

/-- What follows a byte or a character, after the first apostrophe. -/
def single? (k : Content) : List Char → Option (List Char)
  | [] => none
  | c :: cs =>
    let rest := if c = '\\' then escape? k cs else if k.admits c then some cs else none
    match rest with
    | some ('\'' :: rest) => some (afterSuffix rest)
    | _ => none

/-! ### Numbers -/

/-- What follows the exponent of a number, after its letter.  If there is no exponent after all, it
is `otherwise`. -/
def exponent? (otherwise : Option (List Char)) :
    (signed started : Bool) → List Char → Option (List Char)
  | _, started, [] => if started then some [] else otherwise
  | signed, started, c :: cs =>
    if c = '+' ∨ c = '-' then
      if started then some (c :: cs)
      else if signed then otherwise
      else exponent? otherwise true false cs
    else if c.isDigit then exponent? otherwise signed true cs
    else if c = '_' then exponent? otherwise signed started cs
    else if started then some (c :: cs)
    else otherwise

/-- What follows a decimal fraction, after its first digit: it has a point or an exponent.  A point
before another one or before a name does not belong to a number. -/
def decimal? : (pointed : Bool) → List Char → Option (List Char)
  | pointed, [] => if pointed then some [] else none
  | pointed, c :: cs =>
    if c.isDigit ∨ c = '_' then decimal? pointed cs
    else if c = '.' ∧ pointed = false then
      if cs.head?.any fun d => d == '.' || Text.isNameStart d then none else decimal? true cs
    else if c = 'e' ∨ c = 'E' then
      exponent? (if pointed then some (c :: cs) else none) false false cs
    else if pointed then some (c :: cs)
    else none

/-- What follows the digits of an integer. -/
def digits? (base : Nat) : (started : Bool) → List Char → Option (List Char)
  | started, [] => if started then some [] else none
  | started, c :: cs =>
    if c = '_' then if started = false ∧ base = 10 then none else digits? base started cs
    else
      match hexValue? c with
      | some d =>
        if d < base then digits? base true cs
        else if c.isDigit then none
        else if started then some (c :: cs)
        else none
      | none => if started then some (c :: cs) else none

/-- What follows an integer. -/
def integer? : List Char → Option (List Char)
  | '0' :: 'x' :: cs => digits? 16 false cs
  | '0' :: 'o' :: cs => digits? 8 false cs
  | '0' :: 'b' :: cs => digits? 2 false cs
  | cs => digits? 10 false cs

/-- What follows a number. -/
def number? : List Char → Option (List Char)
  | [] => none
  | c :: cs =>
    let fraction := if c.isDigit then (decimal? false cs).bind afterNumber? else none
    fraction.or ((integer? (c :: cs)).bind afterNumber?)

/-- What follows the literal at the front. -/
def skip? : List Char → Option (List Char)
  | '"' :: cs => quoted? .text (cs.length + 1) cs
  | 'r' :: cs => raw? .text cs
  | 'b' :: '"' :: cs => quoted? .bytes (cs.length + 1) cs
  | 'b' :: 'r' :: cs => raw? .bytes cs
  | 'b' :: '\'' :: cs => single? .bytes cs
  | 'c' :: '"' :: cs => quoted? .terminated (cs.length + 1) cs
  | 'c' :: 'r' :: cs => raw? .terminated cs
  | '\'' :: cs => single? .text cs
  | cs => number? cs

end Literal

end Marshal
