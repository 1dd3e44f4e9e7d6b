import Marshal.Catalogue.Basic

/-!
# Records of the catalogue

Records of scalars, sequences, arrays, maps and optional values, records with casts and with fields
that are left out, and records that are another name for a type.
-/

namespace Marshal

namespace Catalogue

open TypeExpr

/-- Records whose fields are as their types are. -/
def plainRecords : List Item :=
  [ record "Scalars"
      [field "a" u8, field "b" i8, field "c" u16, field "d" i16, field "e" u32, field "f" i32,
        field "g" u64, field "h" i64, field "i" usize, field "j" isize, field "k" f32,
        field "l" f64, field "m" bool, field "n" text],
    record "Id" [field "val" u16],
    record "Vec3" [field "x" f32, field "y" f32, field "z" f32]
      [entries [.keyed "struct" .none, .keyed "crate" (.string "::cod")]],
    record "BlockedStruct" [field "blocked" u32 [cast "u64"], field "flag" bool],
    record "Person"
      [field "name" text, field "age" u8, field "id" (named "Id"), field "array" (arr 2 u16),
        field "slice" (vec u32), field "double_slice" (vec (vec u8)),
        field "map" (hashMap text (vec u64)),
        field "multi_map" (hashMap text (sortedMap u32 (vec i64))),
        field "my_union" (named "MyUnion"), field "pointer" (opt (named "BlockedStruct"))],
    tuple "Pair" [item u32, item text],
    tuple "Tuple3" [item u8, item text [skip "equality"], item i16 [cast "fixed_u32"]],
    unit "Marker",
    record "Empty" [],
    record "Markers" [field "markers" (vec (named "Marker")), field "tail" u8],
    record "MarkerMap"
      [field "index" (sortedMap (named "Marker") (opt (named "Marker"))),
        field "blank" (sortedMap (named "Marker") (named "Marker")), field "tail" u16],
    record "Layered"
      [field "maybe" (opt (opt u32)), field "grid" (arr 2 (arr 2 u8)), field "names" (arr 2 text)],
    record "Index" [field "entries" (sortedMap i32 text), field "list" (vec (opt text))],
    record "Node" [field "value" u32, field "next" (opt (box (named "Node")))],
    record "Frames"
      [field "frames" (vec (arr 33 u8)), field "window" (opt (arr 40 u16)),
        field "pages" (sortedMap u8 (arr 34 (arr 2 u8)))],
    record "Seqs"
      [field "a" (vec u32), field "b" (vec (vec u16)), field "c" (vec text), field "d" (vec bool),
        field "e" (vec (opt i8))],
    record "Bytes"
      [field "data" (vec u8), field "many" (vec (vec u8)), field "maybe" (opt (vec u8))],
    record "Arrays"
      [field "a" (arr 3 u32), field "b" (arr 2 (vec u8)), field "c" (arr 2 (arr 2 i16)),
        field "d" (arr 0 u8), field "e" (arr 2 (opt text))],
    record "ArraySeqs" [field "a" (vec (arr 2 u32)), field "z" (vec (arr 0 u8)), field "t" u8],
    record "Maps"
      [field "a" (sortedMap text u32), field "b" (sortedMap u64 (vec text)),
        field "c" (sortedMap bool (sortedMap i8 f32))],
    record "HashMaps"
      [field "a" (hashMap text u32),
        field "b" (apply "HashMap" [u16, opt text, named "FixedHash"])],
    record "Opts"
      [field "a" (opt u8), field "b" (opt (opt (opt bool))), field "c" (opt (vec (opt u32))),
        field "d" (opt (sortedMap u8 u8)), field "e" (opt (arr 2 u16))],
    record "Delegates"
      [field "a" (named "Id"), field "b" (box u32), field "c" (box (vec u32)),
        field "d" (named "Ids"), field "e" (vec (named "Byte")),
        field "f" (opt (box (named "Id"))), field "g" (vec (named "Id")),
        field "h" (arr 2 (named "Id")), field "i" (sortedMap text (named "Id"))],
    record "Deep" [field "x" (vec (sortedMap text (opt (vec (arr 2 u16)))))],
    record "RawNames" [field "r#type" u8, field "r#match" (vec u16)]]

/-- Records whose fields are cast or left out. -/
def modifiedRecords : List Item :=
  [ record "Fixed" [field "port" u16 [cast "fixed_u32"], field "offset" i8 [cast "fixed_i64"]],
    record "CastInts"
      [field "a" i32 [cast "fixed_u16"], field "b" u64 [cast "fixed_i16"],
        field "c" i64 [cast "u8"], field "d" u32 [cast "i8"], field "e" i8 [cast "usize"],
        field "f" u16 [cast "isize"], field "g" u64 [cast "u16"], field "h" u8 [cast "i64"],
        field "i" isize [cast "fixed_i32"], field "j" i16 [cast "u64"],
        field "k" usize [cast "i16"], field "l" i64 [cast "fixed_u64"]],
    record "CastFloats"
      [field "a" f64 [cast "fixed_u64"], field "b" u64 [cast "f32"], field "c" i64 [cast "f64"],
        field "d" f32 [cast "i32"], field "e" f64 [cast "f32"], field "f" f32 [cast "f64"],
        field "g" f64 [cast "u8"], field "h" f32 [cast "i8"]],
    record "CastBytes"
      [field "raw" (vec u8) [cast "u8"], field "signed" (vec u8) [cast "i8"],
        field "wide" (arr 3 u8) [cast "u16"]],
    record "CastMap"
      [field "m" (sortedMap u8 u32) [cast "fixed_u16"], field "o" (opt (vec i32)) [cast "i8"]],
    record "Widened"
      [field "codes" (vec u16) [cast "fixed_u32"], field "deltas" (vec (opt i16)) [cast "i64"]],
    record "Timed"
      [field "elapsed" (named "Millis") [cast "u64"], field "label" text,
        field "laps" (vec (named "Millis")) [cast "fixed_u64"],
        field "best" (sortedMap (named "Millis") (opt (named "Millis"))) [cast "u64"]],
    record "Modular"
      [field "one" (named "Modded") [cast "u32"],
        field "many" (vec (named "Modded")) [cast "fixed_u32"]],
    record "Cached" [field "key" text, field "hits" u32 [skip "serdes"]],
    record "Stamped" [field "body" (vec u8), field "received" u64 [skip "equality"]],
    record "Scratch" [field "id" u32, field "buffer" (vec text) [skip "serdes, equality"]],
    record "AllSkipped"
      [ field "a" u8
          [entries [.keyed "skip" (.string "serdes"), .keyed "skip" (.string "equality")]],
        field "b" (opt u8) [skip "equality,,serdes,"]],
    record "CacheList"
      [field "items" (vec (named "Cached")), field "last" (named "Cached"),
        field "pair" (arr 2 (named "Cached"))]]

/-- Records that are another name for a type, and one that is made of them. -/
def synonymRecords : List Item :=
  [ tuple "Tags" [item (sortedMap text u32)],
    tuple "SpecialMap" [item (hashMap text (vec u8))],
    tuple "Port" [item u8 [cast "fixed_u16"]],
    tuple "OuterTags" [item (named "Tags")],
    tuple "AliasSeq" [item (vec u32)],
    tuple "AliasOpt" [item (opt text)],
    tuple "AliasArr" [item (arr 2 u16)],
    tuple "AliasHidden" [item u32 [skip "serdes"]],
    tuple "AliasLoose" [item u32 [skip "equality"]],
    tuple "AliasMillis" [item (named "Millis") [cast "u64"]],
    tuple "AliasCached" [item (named "Cached")],
    record "AliasUser"
      [field "seq" (named "AliasSeq"), field "arr" (named "AliasArr"),
        field "cached" (named "AliasCached"), field "many" (vec (named "AliasSeq"))]]

end Catalogue

end Marshal
