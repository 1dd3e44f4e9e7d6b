import Marshal.Code.Basic

/-!
# Printing emitted code

`Code.tokens` prints statements, given the tokens of the path under which emitted code finds the
run-time library.  The buffer is called `bs`, the running offset `n`.
-/

namespace Marshal

open Token

/-- The tokens of an absolute path. -/
def absolute (names : List String) : List Token := names.flatMap fun s => words ["::", s]

/-- The tokens of a path below another one. -/
def below (path : List Token) (names : List String) : List Token := path ++ absolute names

/-- The tokens of a local name. -/
def Local.token (x : Local) : Token := atom x.text

namespace Place

/-- The tokens of a place. -/
def tokens : Place → List Token
  | root ts => ts
  | var x => [x.token]
  | deref x => [paren [atom "*", x.token]]
  | item p i => p.tokens ++ [bracket [i.token]]

/-- The tokens of a reference to a place. -/
def refTokens (p : Place) : List Token := atom "&" :: p.tokens

/-- The tokens of a method call on a place. -/
def callTokens (p : Place) (method : String) (arguments : List Token) : List Token :=
  p.tokens ++ words [".", method] ++ [paren arguments]

end Place

/-- The tokens of a blank value. -/
def Fresh.tokens : Fresh → List Token
  | byDefault => absolute ["core", "default", "Default", "default"] ++ [paren []]
  | arrayOf element =>
    absolute ["core", "array", "from_fn"] ++ [paren (words ["|", "_", "|"] ++ element.tokens)]

/-- The tokens of the type that a scalar has in emitted code. -/
def Scalar.tokens : Scalar → List Token
  | .text => absolute ["std", "string", "String"]
  | s => [atom s.name]

/-- The tokens of a conversion. -/
def conversionTokens (argument : List Token) : List Token :=
  absolute ["core", "convert", "From", "from"] ++ [paren argument]

/-- The tokens of a value that is handed to a writer. -/
def Outgoing.tokens : Outgoing → List Token
  | byValue p => p.tokens
  | byReference p => p.refTokens
  | castTo p w => p.tokens ++ atom "as" :: w.scalar.tokens
  | converted p =>
    conversionTokens (absolute ["core", "clone", "Clone", "clone"] ++ [paren p.refTokens])

/-- The tokens of what is stored of a value that was read. -/
def Incoming.tokens : Incoming → List Token
  | asIs => words ["decoded"]
  | castTo type => words ["decoded", "as"] ++ type.tokens
  | converted => conversionTokens (words ["decoded"])

namespace Code

/-- The rest of the input. -/
def restTokens : List Token := [atom "&", atom "bs", bracket (words ["n", ".."])]

/-- Moves the running offset. -/
def advanceTokens : List Token := words ["n", "+=", "n_off", ";"]

/-- Ends a comparison with a difference. -/
def returnFalse : Token := brace (words ["return", "false", ";"])

/-- The tokens of an optional value that is there. -/
def someTokens (argument : Token) : List Token :=
  absolute ["core", "option", "Option", "Some"] ++ [paren [argument]]

/-- The tokens of an optional value that is absent. -/
def noneTokens : List Token := absolute ["core", "option", "Option", "None"]

/-- The tokens of a reader's call that binds what was read and moves the running offset. -/
def readTokens (runtime : List Token) (name reader : String) : List Token :=
  [atom "let", paren (words [name, ",", "n_off"]), atom "="] ++
    below runtime ["backend", reader] ++ [paren restTokens] ++ words ["?", ";"] ++ advanceTokens

/-- The tokens of a writer's call. -/
def writeTokens (runtime : List Token) (writer : String) (value : List Token) : List Token :=
  below runtime ["backend", writer] ++ [paren (words ["bs", ","] ++ value), atom ";"]

/-- The tokens of a condition on the lengths of two places. -/
def lengthTokens (p : Place) : List Token := p.callTokens "len" []

/-- The tokens of statements. -/
def tokens (runtime : List Token) : Code → List Token
  | skip => []
  | seq first second => first.tokens runtime ++ second.tokens runtime
  | block body => [brace (body.tokens runtime)]
  | bindRef x p => [atom "let", x.token, atom "="] ++ p.refTokens ++ [atom ";"]
  | forIndex i p body =>
    [atom "for", i.token] ++ words ["in", "0", ".."] ++ lengthTokens p ++
      [brace (body.tokens runtime)]
  | encodeNested p =>
    below runtime ["Encode", "encode_cod"] ++
      [paren (p.refTokens ++ words [",", "bs"]), atom ";"]
  | write w e => writeTokens runtime w.writerName e.tokens
  | writeBytes p => writeTokens runtime "write_bytes" p.refTokens
  | writeLength p =>
    writeTokens runtime "write_var_u64" (lengthTokens p ++ words ["as", "u64"])
  | writePresence there => writeTokens runtime "write_u8" [atom (if there then "1" else "0")]
  | forEntries k v p body =>
    [atom "for", paren [k.token, atom ",", v.token], atom "in"] ++ p.callTokens "iter" [] ++
      [brace (body.tokens runtime)]
  | caseOption p x there absent =>
    atom "match" :: p.refTokens ++
      [brace
        (someTokens x.token ++ [atom "=>", brace (there.tokens runtime)] ++
          noneTokens ++ [atom "=>", brace (absent.tokens runtime)])]
  | decodeNested p =>
    words ["n", "+="] ++ below runtime ["Decode", "decode_cod"] ++
      [paren (words ["&", "mut"] ++ p.tokens ++ atom "," :: restTokens)] ++ words ["?", ";"]
  | readInto w p e =>
    [brace
      (readTokens runtime "decoded" w.readerName ++
        p.tokens ++ atom "=" :: e.tokens ++ [atom ";"])]
  | readBytesInto p =>
    [brace
      (readTokens runtime "decoded" "read_bytes" ++
        p.callTokens "clear" [] ++ atom ";" ::
        p.callTokens "extend_from_slice" (words ["decoded"]) ++ [atom ";"])]
  | readLength x => readTokens runtime x.text "read_var_u64"
  | checkLength x =>
    [atom "if", x.token, atom ">",
      paren ([atom "bs", atom ".", atom "len", paren []] ++ words ["-", "n"])] ++
      words ["as", "u64"] ++
      [brace
        (atom "return" :: absolute ["core", "result", "Result", "Err"] ++
          [paren (below runtime ["Error", "TruncatedData"]), atom ";"])]
  | clear p => p.callTokens "clear" [] ++ [atom ";"]
  | times x body =>
    words ["for", "_", "in", "0", ".."] ++ [x.token, brace (body.tokens runtime)]
  | bindFresh x type e =>
    words ["let", "mut"] ++ [x.token, atom ":"] ++ type.tokens ++ atom "=" :: e.tokens ++
      [atom ";"]
  | push p x => p.callTokens "push" [x.token] ++ [atom ";"]
  | insert p k v => p.callTokens "insert" [k.token, atom ",", v.token] ++ [atom ";"]
  | casePresence absent there =>
    readTokens runtime "presence" "read_u8" ++ words ["if", "presence", "==", "0"] ++
      [brace (absent.tokens runtime), atom "else", brace (there.tokens runtime)]
  | storeAbsent p => p.tokens ++ atom "=" :: noneTokens ++ [atom ";"]
  | storePresent p x => p.tokens ++ atom "=" :: someTokens x.token ++ [atom ";"]
  | store p x => p.tokens ++ [atom "=", x.token, atom ";"]
  | requireSame p q => atom "if" :: p.tokens ++ atom "!=" :: q.tokens ++ [returnFalse]
  | requireEqual p q =>
    words ["if", "!"] ++ below runtime ["CodEquals", "cod_equals"] ++
      [paren (p.refTokens ++ atom "," :: q.refTokens), returnFalse]
  | requireSameLength p q =>
    atom "if" :: lengthTokens p ++ atom "!=" :: lengthTokens q ++ [returnFalse]
  | bindEntry x p k =>
    atom "let" :: someTokens x.token ++ atom "=" :: p.callTokens "get" [k.token] ++
      [atom "else", returnFalse, atom ";"]
  | caseBoth p q l r there =>
    [atom "match", paren (p.refTokens ++ atom "," :: q.refTokens),
      brace
        ([paren (someTokens l.token ++ atom "," :: someTokens r.token ++ [atom ","]), atom "=>",
            brace (there.tokens runtime),
            paren (noneTokens ++ atom "," :: noneTokens), atom "=>", brace []] ++
          words ["_", "=>", "return", "false", ","])]

end Code

end Marshal
