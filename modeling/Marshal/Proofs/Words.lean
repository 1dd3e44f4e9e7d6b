import Marshal.Proofs.Scope
import Marshal.Proofs.Template
import Marshal.Proofs.TypeGrammar

/-!
# The words of emitted code

Where emitted code has words of its own, they are keywords, names of the standard library, names of
its own variables and functions, numbers and what the declaration brings in.  None of them is a name
that the run-time library has at its top (`runtimeNames`), except where the declaration brings in
one: all words are `Permitted`.

What code has from outside are the tokens of its places and types (`Code.given`).  If these are
permitted, printed code is a template around the path of the run-time library
(`Code.template_tokens`).  The code of a field has no other tokens from outside than those of the
places that it works on and of the types in the field tree (`Field.given`), and these stand in the
declared type (`LaidOut.plain_given`).
-/

namespace Marshal

open Token

/-! ### Words -/

/-- The run-time library and what it has at its top. -/
def runtimeNames : List String :=
  ["cod", "backend", "decode", "encode", "equality", "union", "Cod", "Decode", "Encode",
    "CodEquals", "Error", "UNION_EMPTY", "UnionDef"]

/-- The word is not a name of the run-time library, unless it is among the given ones. -/
def Permitted (given : List Token) (s : String) : Prop := s ∈ runtimeNames → s ∈ atomsIn given

variable {ds : List Token}

theorem permitted_of_notMem {s : String} (h : s ∉ runtimeNames) : Permitted ds s :=
  fun hmem => absurd hmem h

-- the words of the printers, a simplification rule for each
@[simp] theorem permitted_punctuation :
    Permitted ds "!" ∧ Permitted ds "!=" ∧ Permitted ds "#" ∧ Permitted ds "&" ∧ Permitted ds "*" ∧
    Permitted ds "+=" ∧ Permitted ds "," ∧ Permitted ds "-" ∧ Permitted ds "->" ∧ Permitted ds "." ∧
    Permitted ds ".." ∧ Permitted ds ":" ∧ Permitted ds "::" ∧ Permitted ds ";" ∧ Permitted ds "<" ∧
    Permitted ds "=" ∧ Permitted ds "==" ∧ Permitted ds "=>" ∧ Permitted ds ">" ∧ Permitted ds "?" ∧
    Permitted ds "|" ∧ Permitted ds "_" ∧ Permitted ds "0" ∧ Permitted ds "1" := by
  simp [permitted_of_notMem, runtimeNames]

@[simp] theorem permitted_keyword :
    Permitted ds "as" ∧ Permitted ds "const" ∧ Permitted ds "else" ∧ Permitted ds "false" ∧
    Permitted ds "fn" ∧ Permitted ds "for" ∧ Permitted ds "if" ∧ Permitted ds "impl" ∧
    Permitted ds "in" ∧ Permitted ds "let" ∧ Permitted ds "match" ∧ Permitted ds "mut" ∧
    Permitted ds "pub" ∧ Permitted ds "ref" ∧ Permitted ds "return" ∧ Permitted ds "self" ∧
    Permitted ds "Self" ∧ Permitted ds "true" := by
  simp [permitted_of_notMem, runtimeNames]

@[simp] theorem permitted_standard :
    Permitted ds "core" ∧ Permitted ds "std" ∧ Permitted ds "array" ∧ Permitted ds "bool" ∧
    Permitted ds "clear" ∧ Permitted ds "clone" ∧ Permitted ds "Clone" ∧ Permitted ds "convert" ∧
    Permitted ds "default" ∧ Permitted ds "Default" ∧ Permitted ds "Err" ∧
    Permitted ds "extend_from_slice" ∧ Permitted ds "from" ∧ Permitted ds "From" ∧
    Permitted ds "from_fn" ∧ Permitted ds "get" ∧ Permitted ds "insert" ∧ Permitted ds "into" ∧
    Permitted ds "Into" ∧ Permitted ds "iter" ∧ Permitted ds "len" ∧ Permitted ds "map_or" ∧
    Permitted ds "None" ∧ Permitted ds "Ok" ∧ Permitted ds "option" ∧ Permitted ds "Option" ∧
    Permitted ds "push" ∧ Permitted ds "as_ref" ∧ Permitted ds "result" ∧ Permitted ds "Result" ∧
    Permitted ds "Some" ∧ Permitted ds "string" ∧ Permitted ds "String" ∧ Permitted ds "u8" ∧
    Permitted ds "u64" ∧ Permitted ds "usize" ∧ Permitted ds "vec" ∧ Permitted ds "Vec" := by
  simp [permitted_of_notMem, runtimeNames]

@[simp] theorem permitted_member :
    Permitted ds "cod_equals" ∧ Permitted ds "decode_cod" ∧ Permitted ds "decode_member" ∧
    Permitted ds "encode_cod" ∧ Permitted ds "encode_member" ∧ Permitted ds "member_equals" ∧
    Permitted ds "new" ∧ Permitted ds "read_bytes" ∧ Permitted ds "read_u8" ∧
    Permitted ds "read_var_u64" ∧ Permitted ds "set" ∧ Permitted ds "size" ∧ Permitted ds "SIZE" ∧
    Permitted ds "tag" ∧ Permitted ds "TruncatedData" ∧ Permitted ds "UnknownUnionType" ∧
    Permitted ds "write_bytes" ∧ Permitted ds "write_u8" ∧ Permitted ds "write_var_u64" := by
  simp [permitted_of_notMem, runtimeNames]

@[simp] theorem permitted_variable :
    Permitted ds "_bs" ∧ Permitted ds "_other" ∧ Permitted ds "bs" ∧ Permitted ds "decoded" ∧
    Permitted ds "lhs" ∧ Permitted ds "n" ∧ Permitted ds "n_off" ∧ Permitted ds "other" ∧
    Permitted ds "presence" ∧ Permitted ds "rhs" ∧ Permitted ds "value" := by
  simp [permitted_of_notMem, runtimeNames]

@[simp] theorem permitted_lint :
    Permitted ds "allow" ∧ Permitted ds "automatically_derived" ∧
    Permitted ds "cast_possible_truncation" ∧ Permitted ds "clippy" ∧ Permitted ds "dead_code" ∧
    Permitted ds "doc" ∧ Permitted ds "float_cmp" ∧ Permitted ds "match_single_binding" ∧
    Permitted ds "needless_range_loop" ∧ Permitted ds "unreachable_patterns" ∧
    Permitted ds "unused_assignments" ∧ Permitted ds "unused_mut" ∧
    Permitted ds "unused_variables" := by
  simp [permitted_of_notMem, runtimeNames]

/-- No name of the run-time library has a digit or starts like the name of a reader or a writer. -/
theorem runtimeNames_all : runtimeNames.all fun s =>
    (s.toList.all fun c => !c.isDigit) && !(['r', 'w'].contains (s.toList.headD 'r')) := by
  decide

theorem permitted_of_digit {s : String} {c : Char} (hc : c ∈ s.toList) (hd : c.isDigit = true) :
    Permitted ds s := by
  intro hmem
  have hall := List.all_eq_true.1 runtimeNames_all s hmem
  rw [Bool.and_eq_true] at hall
  have hno := List.all_eq_true.1 hall.1 c hc
  simp [hd] at hno

theorem permitted_of_head {s : String} {c : Char} {cs : List Char} (hs : s.toList = c :: cs)
    (hc : c ∈ ['r', 'w']) : Permitted ds s := by
  intro hmem
  have hall := List.all_eq_true.1 runtimeNames_all s hmem
  rw [Bool.and_eq_true, hs] at hall
  simp [hc] at hall

theorem permitted_repr_append (n : Nat) (s : String) : Permitted ds (n.repr ++ s) := by
  obtain ⟨c, hc⟩ := List.exists_mem_of_ne_nil _ (Nat.toDigits_ne_nil (n := n) (b := 10))
  refine permitted_of_digit ?_ (Local.isDigit_toDigits hc)
  simp [Nat.repr_eq_ofList_toDigits, hc]

@[simp] theorem permitted_repr (n : Nat) : Permitted ds n.repr := by
  have hdigits : Permitted ds (n.repr ++ "") := permitted_repr_append n ""
  simpa using hdigits

@[simp] theorem Local.permitted_text (x : Local) : Permitted ds x.text := by
  obtain ⟨c, hc⟩ := List.exists_mem_of_ne_nil _ (Nat.toDigits_ne_nil (n := x.depth) (b := 10))
  exact permitted_of_digit (by simp [toList_text, hc]) (isDigit_toDigits hc)

@[simp] theorem Wire.permitted_writerName (w : Wire) : Permitted ds w.writerName :=
  permitted_of_head (by simp [writerName]; rfl) (List.mem_cons_of_mem _ List.mem_cons_self)

@[simp] theorem Wire.permitted_readerName (w : Wire) : Permitted ds w.readerName :=
  permitted_of_head (by simp [readerName]; rfl) List.mem_cons_self

theorem Scalar.permitted_name (s : Scalar) : Permitted ds s.name := by
  rcases s with ⟨signed, width⟩ | f | _ | _
  · cases signed <;> cases width <;>
      simp [permitted_of_notMem, runtimeNames, Scalar.name, IntType.name, Width.suffix]
  · cases f <;> simp [permitted_of_notMem, runtimeNames, Scalar.name, FloatType.name]
  · simp [permitted_of_notMem, runtimeNames, Scalar.name]
  · simp [permitted_of_notMem, runtimeNames, Scalar.name]

/-! ### Code -/

/-- The tokens that a place takes from outside. -/
def Place.given : Place → List Token
  | root ts => ts
  | var _ | deref _ => []
  | item p _ => p.given

/-- The tokens of the type that a value is cast to. -/
def Incoming.given : Incoming → List Token
  | castTo type => type.tokens
  | asIs | converted => []

/-- The tokens that code takes from outside: those of places and of types. -/
def Code.given : Code → List Token
  | skip | writePresence _ | readLength _ | checkLength _ => []
  | seq first second => first.given ++ second.given
  | block body | times _ body => body.given
  | bindRef _ p | encodeNested p | writeBytes p | writeLength p | decodeNested p | clear p
  | readBytesInto p | storeAbsent p | push p _ | storePresent p _ | store p _ | insert p _ _
  | bindEntry _ p _ => p.given
  | write _ e => e.place.given
  | readInto _ p e => p.given ++ e.given
  | bindFresh _ type _ => type.tokens
  | forIndex _ p body | forEntries _ _ p body => p.given ++ body.given
  | caseOption p _ there absent => p.given ++ (there.given ++ absent.given)
  | casePresence absent there => absent.given ++ there.given
  | requireSame p q | requireEqual p q | requireSameLength p q => p.given ++ q.given
  | caseBoth p q _ _ there => p.given ++ (q.given ++ there.given)

theorem Place.plain_tokens {p : Place} (h : Plain (Permitted ds) p.given) :
    Plain (Permitted ds) p.tokens := by
  induction p with
  | root => exact h
  | var | deref => simp [tokens, Local.token]
  | item p i ih => simp [tokens, Local.token, ih h]

theorem Fresh.plain_tokens (e : Fresh) : Plain (Permitted ds) e.tokens := by
  induction e with
  | byDefault => simp [tokens, plain_absolute]
  | arrayOf e ih => simp [tokens, plain_absolute, ih]

theorem Scalar.plain_tokens (s : Scalar) : Plain (Permitted ds) s.tokens := by
  unfold Scalar.tokens
  split
  · simp [plain_absolute]
  · simp [Scalar.permitted_name]

theorem Outgoing.plain_tokens {e : Outgoing} (h : Plain (Permitted ds) e.place.given) :
    Plain (Permitted ds) e.tokens := by
  cases e with
  | byValue p => exact Place.plain_tokens h
  | byReference p =>
    have hp : Plain (Permitted ds) p.tokens := Place.plain_tokens h
    simp [tokens, Place.refTokens, hp]
  | castTo p w =>
    have hp : Plain (Permitted ds) p.tokens := Place.plain_tokens h
    simp [tokens, Scalar.plain_tokens, hp]
  | converted p =>
    have hp : Plain (Permitted ds) p.tokens := Place.plain_tokens h
    simp [tokens, conversionTokens, Place.refTokens, plain_absolute, hp]

theorem Incoming.plain_tokens {e : Incoming} (h : Plain (Permitted ds) e.given) :
    Plain (Permitted ds) e.tokens := by
  cases e with
  | asIs => simp [tokens]
  | castTo type =>
    have htype : Plain (Permitted ds) type.tokens := h
    simp [tokens, htype]
  | converted =>
    simp [tokens, conversionTokens, plain_absolute]

namespace Code

theorem template_readTokens {name reader : String} (hname : Permitted ds name)
    (hreader : Permitted ds reader) :
    Template (Permitted ds) fun path => readTokens path name reader := by
  refine Template.own ?_ |>.append (.names (by simp) _ ?_) |>.append (.own ?_)
    |>.append (.own ?_) |>.append (.own ?_)
  all_goals simp [restTokens, advanceTokens, hname, hreader]

theorem template_writeTokens {writer : String} {value : List Token}
    (hwriter : Permitted ds writer) (hvalue : Plain (Permitted ds) value) :
    Template (Permitted ds) fun path => writeTokens path writer value := by
  refine .append (.names (by simp) _ ?_) (.own ?_)
  all_goals simp [hwriter, hvalue]

/-- Printed code is a template around the path of the run-time library. -/
theorem template_tokens (c : Code) (h : Plain (Permitted ds) c.given) :
    Template (Permitted ds) fun path => c.tokens path := by
  induction c with
  | skip => exact .own plain_nil
  | seq c d ihc ihd =>
    rw [Code.given, plain_append] at h
    exact .append (ihc h.1) (ihd h.2)
  | block body ih => exact .enclosed _ (ih h)
  | bindRef x p =>
    have hp := Place.plain_tokens h
    exact .own (by simp [Place.refTokens, Local.token, hp])
  | forIndex i p body ih =>
    rw [Code.given, plain_append] at h
    have hp := Place.plain_tokens h.1
    refine .append (.own ?_) (.enclosed _ (ih h.2))
    simp [lengthTokens, Place.callTokens, Local.token, hp]
  | encodeNested p =>
    have hp := Place.plain_tokens h
    refine .append (.names (by simp) _ ?_) (.own ?_)
    all_goals simp [Place.refTokens, hp]
  | write w e => exact template_writeTokens w.permitted_writerName (Outgoing.plain_tokens h)
  | writeBytes p =>
    have hp := Place.plain_tokens h
    refine template_writeTokens ?_ ?_
    all_goals simp [Place.refTokens, hp]
  | writeLength p =>
    have hp := Place.plain_tokens h
    refine template_writeTokens ?_ ?_
    all_goals simp [lengthTokens, Place.callTokens, hp]
  | writePresence there =>
    refine template_writeTokens ?_ ?_
    · simp
    · cases there <;> simp
  | forEntries k v p body ih =>
    rw [Code.given, plain_append] at h
    have hp := Place.plain_tokens h.1
    refine .append (.own ?_) (.enclosed _ (ih h.2))
    simp [Place.callTokens, Local.token, hp]
  | caseOption p x there absent iht iha =>
    rw [Code.given, plain_append, plain_append] at h
    have hp := Place.plain_tokens h.1
    refine .cons ?_ (.append (.own ?_) (.enclosed _
      (Template.own ?_ |>.append (.cons ?_ (.enclosed _ (iht h.2.1))) |>.append (.own ?_)
        |>.append (.cons ?_ (.enclosed _ (iha h.2.2))))))
    all_goals simp [Place.refTokens, someTokens, noneTokens, plain_absolute,
      Local.token, hp]
  | decodeNested p =>
    have hp := Place.plain_tokens h
    refine Template.own ?_ |>.append (.names (by simp) _ ?_) |>.append (.own ?_)
      |>.append (.own ?_)
    all_goals simp [restTokens, hp]
  | readInto w p e =>
    rw [Code.given, plain_append] at h
    have hp := Place.plain_tokens h.1
    have he := Incoming.plain_tokens h.2
    refine .enclosed _ (template_readTokens ?_ w.permitted_readerName |>.append (.own ?_)
      |>.append (.own ?_) |>.append (.own ?_))
    all_goals simp [hp, he]
  | readBytesInto p =>
    have hp := Place.plain_tokens h
    refine .enclosed _ (template_readTokens ?_ ?_ |>.append (.own ?_) |>.append (.own ?_)
      |>.append (.own ?_))
    all_goals simp [Place.callTokens, hp]
  | readLength x => exact template_readTokens x.permitted_text (by simp)
  | checkLength x =>
    refine .append (.own ?_) (.enclosed _ (.cons ?_ (.append (.own ?_)
      (.group_cons _ (.names (by simp) _ ?_) (.own ?_)))))
    all_goals simp [plain_absolute, Local.token]
  | clear p =>
    have hp := Place.plain_tokens h
    exact .own (by simp [Place.callTokens, hp])
  | times x body ih =>
    refine .append (.own ?_) (.cons x.permitted_text (.enclosed _ (ih h)))
    simp
  | bindFresh x type e =>
    have htype : Plain (Permitted ds) type.tokens := h
    exact .own (by simp [Local.token, htype, Fresh.plain_tokens])
  | push p x | insert p x y | storePresent p x | storeAbsent p | store p x =>
    have hp := Place.plain_tokens h
    exact .own (by
      simp [Place.callTokens, someTokens, noneTokens, plain_absolute,
        Local.token, hp])
  | casePresence absent there iha iht =>
    rw [Code.given, plain_append] at h
    refine .append (.append (template_readTokens ?_ ?_) (.own ?_))
      (.group_cons _ (iha h.1) (.cons ?_ (.enclosed _ (iht h.2))))
    all_goals simp
  | requireSame p q | requireSameLength p q =>
    rw [Code.given, plain_append] at h
    have hp := Place.plain_tokens h.1
    have hq := Place.plain_tokens h.2
    exact .own (by simp [lengthTokens, Place.callTokens, returnFalse, hp, hq])
  | requireEqual p q =>
    rw [Code.given, plain_append] at h
    have hp := Place.plain_tokens h.1
    have hq := Place.plain_tokens h.2
    refine .append (.append (.own ?_) (.names (by simp) _ ?_)) (.own ?_)
    all_goals simp [Place.refTokens, returnFalse, hp, hq]
  | bindEntry x p k =>
    have hp := Place.plain_tokens h
    exact .own (by
      simp [Place.callTokens, someTokens, plain_absolute, returnFalse,
        Local.token, hp])
  | caseBoth p q l r there ih =>
    rw [Code.given, plain_append, plain_append] at h
    have hp := Place.plain_tokens h.1
    have hq := Place.plain_tokens h.2.1
    refine .cons ?_ (.group_cons _ (.own ?_) (.enclosed _ (.append (.group_cons _ (.own ?_)
      (.cons ?_ (.group_cons _ (ih h.2.2) (.own ?_)))) (.own ?_))))
    all_goals simp [Place.refTokens, someTokens, noneTokens, plain_absolute,
      Local.token, hp, hq]

end Code

/-! ### Fields -/

variable {W : String → Prop}

theorem Code.plain_ofList {cs : List Code} :
    Plain W (Code.ofList cs).given ↔ ∀ c ∈ cs, Plain W c.given := by
  induction cs with
  | nil => simp [ofList, Code.given]
  | cons c cs ih =>
    cases cs with
    | nil => simp [ofList]
    | cons d cs => simp [ofList, Code.given, ih]

namespace Field

/-- The tokens of the types of all nodes. -/
def given : Field → List Token
  | leaf _ type _ => type.tokens
  | array _ type _ inner | sequence _ type _ inner | optional _ type _ inner =>
    type.tokens ++ inner.given
  | map _ type _ key value => type.tokens ++ (key.given ++ value.given)
  | synonym _ ident _ inner => atom ident :: inner.given
  | member _ _ _ inner => inner.given

theorem plain_type {f : Field} (h : Plain W f.given) : Plain W f.type.tokens := by
  induction f with
  | leaf => exact h
  | array | sequence | optional | map => exact (plain_append.1 h).1
  | synonym info ident depth inner =>
    simpa [type, TypeExpr.named, TypeExpr.tokens, segmentTokens, Segment.tokens]
      using (plain_atom.1 h).1
  | member _ _ _ inner ih => exact ih h

theorem plain_encodeCode {f : Field} {p : Place} (hp : Plain W p.given) :
    Plain W (f.encodeCode p).given := by
  induction f generalizing p with
  | leaf info type wire =>
    unfold encodeCode
    split
    · exact hp
    · rwa [Code.given, place_outgoing]
  | array _ _ depth inner ih =>
    have hinner := ih (p := .item p ⟨.i, depth⟩) hp
    simp [encodeCode, Code.given, hp, hinner]
  | sequence _ _ depth inner ih =>
    have hinner := ih (p := .item p ⟨.i, depth⟩) hp
    unfold encodeCode
    split
    · exact hp
    · simp [Code.given, hp, hinner]
  | map _ _ depth key value ihk ihv =>
    have hkey := ihk (p := .deref ⟨.k, depth⟩) plain_nil
    have hvalue := ihv (p := .deref ⟨.v, depth⟩) plain_nil
    simp [encodeCode, Code.given, hp, hkey, hvalue]
  | optional _ _ depth inner ih | synonym _ _ depth inner ih =>
    have hinner := ih (p := .deref ⟨.value, depth⟩) plain_nil
    simp [encodeCode, Code.given, hp, hinner]
  | member _ _ _ inner ih => exact ih hp

theorem plain_lengthCheck (x : Local) (takesBytes : Bool) :
    Plain W (lengthCheck x takesBytes).given := by
  cases takesBytes <;> exact plain_nil

theorem plain_incoming {cast wire : Option Wire} {type : TypeExpr} (h : Plain W type.tokens) :
    Plain W (incoming cast wire type).given := by
  unfold incoming
  split
  · exact plain_nil
  · exact h
  · exact plain_nil

theorem plain_decodeCode {f : Field} {p : Place} (hf : Plain W f.given) (hp : Plain W p.given) :
    Plain W (f.decodeCode p).given := by
  induction f generalizing p with
  | leaf info type wire =>
    unfold decodeCode
    split
    · exact hp
    · exact plain_append.2 ⟨hp, plain_incoming hf⟩
  | array _ _ depth inner ih =>
    have hcode := ih (p := .item p ⟨.i, depth⟩) (plain_append.1 hf).2 hp
    simp [decodeCode, Code.given, hp, hcode]
  | sequence _ _ depth inner ih =>
    have hinner := (plain_append.1 hf).2
    have hcode := ih (p := .var ⟨.value, depth⟩) hinner plain_nil
    unfold decodeCode
    split
    · exact hp
    · simp [Code.given, Code.plain_ofList, plain_lengthCheck, plain_type hinner, hp, hcode]
  | map _ _ depth key value ihk ihv =>
    obtain ⟨hkey, hvalue⟩ := plain_append.1 (plain_append.1 hf).2
    have hkcode := ihk (p := .var ⟨.key, depth⟩) hkey plain_nil
    have hvcode := ihv (p := .var ⟨.val, depth⟩) hvalue plain_nil
    simp [decodeCode, Code.given, Code.plain_ofList, plain_lengthCheck, plain_type hkey,
      plain_type hvalue, hp, hkcode, hvcode]
  | optional _ _ depth inner ih =>
    have hinner := (plain_append.1 hf).2
    have hcode := ih (p := .var ⟨.value, depth⟩) hinner plain_nil
    simp [decodeCode, Code.given, Code.plain_ofList, plain_type hinner, hp, hcode]
  | synonym _ _ depth inner ih =>
    have hinner := (plain_atom.1 hf).2
    have hcode := ih (p := .var ⟨.value, depth⟩) hinner plain_nil
    simp [decodeCode, Code.given, Code.plain_ofList, plain_type hinner, hp, hcode]
  | member _ _ _ inner ih => exact ih hf hp

theorem plain_equalityCode {f : Field} {p q : Place} (hp : Plain W p.given)
    (hq : Plain W q.given) : Plain W (f.equalityCode p q).given := by
  induction f generalizing p q with
  | leaf info type wire =>
    unfold equalityCode
    split
    · exact plain_append.2 ⟨hp, hq⟩
    · exact plain_append.2 ⟨hp, hq⟩
  | array _ _ depth inner ih | sequence _ _ depth inner ih =>
    have hcode := ih (p := .item p ⟨.i, depth⟩) (q := .item q ⟨.i, depth⟩) hp hq
    simp [equalityCode, itemsEqualityCode, Code.given, hp, hq, hcode]
  | map _ _ depth _ inner _ ih | optional _ _ depth inner ih | synonym _ _ depth inner ih =>
    have hcode := ih (p := .deref ⟨.lhs, depth⟩) (q := .deref ⟨.rhs, depth⟩) plain_nil plain_nil
    simp [equalityCode, Code.given, Code.plain_ofList, hp, hq, hcode]
  | member _ _ _ inner ih => exact ih hp hq

/-! ### Types -/

theorem given_withName (name : String) (f : Field) : (f.withName name).given = f.given := by
  induction f generalizing name with
  | leaf => rfl
  | array _ _ _ _ ih | sequence _ _ _ _ ih | optional _ _ _ _ ih | synonym _ _ _ _ ih =>
    simp [withName, given, ih]
  | map _ _ _ _ _ ihk ihv => simp [withName, given, ihk, ihv]
  | member _ _ _ _ ih => exact ih name

theorem given_withModifiers (m : Modifiers) (f : Field) :
    (f.withModifiers m).given = f.given := by
  induction f with
  | leaf => rfl
  | array _ _ _ _ ih | sequence _ _ _ _ ih | optional _ _ _ _ ih | synonym _ _ _ _ ih =>
    simp [withModifiers, given, ih]
  | map _ _ _ _ _ ihk ihv => simp [withModifiers, given, ihk, ihv]
  | member _ _ _ _ ih => exact ih

end Field

theorem plain_segmentTokens {ss : List Segment} {s : Segment} (hs : s ∈ ss)
    (h : Plain W (segmentTokens ss)) : Plain W s.tokens := by
  induction ss with
  | nil => cases hs
  | cons r ss ih =>
    cases ss with
    | nil =>
      obtain rfl := List.mem_singleton.1 hs
      simpa [segmentTokens] using h
    | cons r' ss =>
      rw [segmentTokens, plain_append, plain_atom] at h
      · rcases List.mem_cons.1 hs with rfl | hs
        · exact h.1
        · exact ih hs h.2.2
      · simp

theorem plain_argumentTokens {as : List Argument} {t : TypeExpr} (ht : .type t ∈ as)
    (h : Plain W (argumentTokens false as)) : Plain W t.tokens := by
  induction as with
  | nil => cases ht
  | cons a as ih =>
    cases as with
    | nil =>
      obtain rfl := List.mem_singleton.1 ht
      simpa [argumentTokens, Argument.isLifetime, Argument.tokens] using h
    | cons a' as =>
      rw [argumentTokens, plain_append] at h
      · rcases List.mem_cons.1 ht with rfl | ht
        · have htype : (Argument.type t).isLifetime = false := rfl
          rw [if_pos htype, Argument.tokens, plain_append] at h
          exact h.1.1
        · exact ih ht h.2
      · simp

theorem plain_types {s : Segment} {t : TypeExpr} (ht : t ∈ s.types) (h : Plain W s.tokens) :
    Plain W t.tokens := by
  cases s with
  | plain | parenthesised => cases ht
  | applied ident separate arguments =>
    obtain ⟨a, ha, hat⟩ := List.mem_filterMap.1 ht
    cases a with
    | type u =>
      cases hat
      refine plain_argumentTokens ha ?_
      simp only [Segment.tokens, plain_append] at h
      exact h.1.2
    | lifetime | other => cases hat

/-- What a type is built from stands in it. -/
theorem plain_contents {leading : Bool} {ss : List Segment} {s : Segment} {t : TypeExpr}
    (hs : ss.getLast? = some s) (ht : t ∈ s.types) (h : Plain W (TypeExpr.path leading ss).tokens) :
    Plain W t.tokens := by
  rw [TypeExpr.tokens, plain_append] at h
  exact plain_types ht (plain_segmentTokens (List.mem_of_getLast? hs) h.2)

theorem LaidOut.plain_given {t : TypeExpr} {n : Nat} {f : Field} (h : LaidOut t n f)
    (ht : Plain W t.tokens) : Plain W f.given := by
  induction h with
  | paren _ ih => exact ih (by simpa [TypeExpr.tokens] using ht)
  | hidden _ ih => exact ih (by simpa [TypeExpr.tokens] using ht)
  | array _ ih =>
    refine plain_append.2 ⟨ht, ih ?_⟩
    simp [TypeExpr.tokens] at ht
    exact ht.1
  | sequence hs _ hts _ ih | optional hs _ hts _ ih =>
    exact plain_append.2 ⟨ht, ih (plain_contents hs (by simp [hts]) ht)⟩
  | map hs _ hts _ _ ihk ihv =>
    exact plain_append.2 ⟨ht, plain_append.2
      ⟨ihk (plain_contents hs (by simp [hts]) ht), ihv (plain_contents hs (by simp [hts]) ht)⟩⟩
  | scalar | delegate => exact ht

end Marshal
