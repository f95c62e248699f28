import LedgerApp.Json11.Basic

/-!
`Json::dump`.
-/

namespace Json11

open Bytes

def hexDigit (d : Nat) : UInt8 :=
  UInt8.ofNat (if d < 10 then 0x30 + d else 0x57 + d)

def dumpChars : Str → Str
  | [] => []
  | ch :: s =>
    if ch = 0x5c then
      lit "\\\\" ++ dumpChars s
    else if ch = 0x22 then
      lit "\\\"" ++ dumpChars s
    else if ch = 0x08 then
      lit "\\b" ++ dumpChars s
    else if ch = 0x0c then
      lit "\\f" ++ dumpChars s
    else if ch = 0x0a then
      lit "\\n" ++ dumpChars s
    else if ch = 0x0d then
      lit "\\r" ++ dumpChars s
    else if ch = 0x09 then
      lit "\\t" ++ dumpChars s
    else if ch ≤ 0x1f then
      lit "\\u00" ++ hexDigit (ch.toNat / 16) :: hexDigit (ch.toNat % 16) :: dumpChars s
    else
      -- U+2028 and U+2029 are the bytes E2 80 A8 and E2 80 A9
      match ch, s with
      | 0xe2, 0x80 :: 0xa8 :: s' => lit "\\u2028" ++ dumpChars s'
      | 0xe2, 0x80 :: 0xa9 :: s' => lit "\\u2029" ++ dumpChars s'
      | ch, s => ch :: dumpChars s

def dumpString (value : Str) : Str :=
  0x22 :: dumpChars value ++ [0x22]

namespace Json

variable {F : Double}

mutual

def dump : Json F → Str
  | .null => lit "null"
  | .bool value => if value then lit "true" else lit "false"
  | .int value => decimal value
  | .double value => if F.isfinite value then F.snprintf value else lit "null"
  | .string value => dumpString value
  | .array items => 0x5b :: dumpItems items ++ [0x5d]
  | .object fields => 0x7b :: dumpFields fields ++ [0x7d]

def dumpItems : List (Json F) → Str
  | [] => []
  | [v] => dump v
  | v :: items => dump v ++ lit ", " ++ dumpItems items

def dumpFields : List (Str × Json F) → Str
  | [] => []
  | [(k, v)] => dumpString k ++ lit ": " ++ dump v
  | (k, v) :: fields => dumpString k ++ lit ": " ++ dump v ++ lit ", " ++ dumpFields fields

end

end Json
end Json11
