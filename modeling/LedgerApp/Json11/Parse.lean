import LedgerApp.Json11.Basic

/-!
`Json::parse` with the standard strategy, which has no comments. The state of `JsonParser` is the
input from position `i` on; `fail` keeps the first message only and every caller returns once the
parse has failed, so a failure is the `error` of `Except`.
-/

namespace Json11

open Bytes

def maxDepth : Nat := 200

def esc (c : UInt8) : Str :=
  if inRange c 0x20 0x7f then
    0x27 :: c :: lit "' (" ++ decimal c.toInt8.toInt ++ lit ")"
  else
    lit "(" ++ decimal c.toInt8.toInt ++ lit ")"

def isSpace (c : UInt8) : Bool :=
  c == 0x20 || c == 0x0d || c == 0x0a || c == 0x09

def consumeWhitespace (s : Str) : Str :=
  s.dropWhile isSpace

def getNextToken (s : Str) : Except Str (UInt8 × Str) :=
  match consumeWhitespace s with
  | [] => throw (lit "unexpected end of input")
  | c :: s => return (c, s)

-- `none` is the codepoint -1
def encodeUtf8 : Option Nat → Str
  | none => []
  | some pt =>
    if pt < 0x80 then
      [UInt8.ofNat pt]
    else if pt < 0x800 then
      [UInt8.ofNat (pt >>> 6 ||| 0xc0), UInt8.ofNat (pt &&& 0x3f ||| 0x80)]
    else if pt < 0x10000 then
      [UInt8.ofNat (pt >>> 12 ||| 0xe0), UInt8.ofNat (pt >>> 6 &&& 0x3f ||| 0x80),
        UInt8.ofNat (pt &&& 0x3f ||| 0x80)]
    else
      [UInt8.ofNat (pt >>> 18 ||| 0xf0), UInt8.ofNat (pt >>> 12 &&& 0x3f ||| 0x80),
        UInt8.ofNat (pt >>> 6 &&& 0x3f ||| 0x80), UInt8.ofNat (pt &&& 0x3f ||| 0x80)]

def isHex (c : UInt8) : Bool :=
  inRange c 0x61 0x66 || inRange c 0x41 0x46 || inRange c 0x30 0x39

def hexValue (c : UInt8) : Nat :=
  if inRange c 0x61 0x66 then
    c.toNat - 0x57
  else if inRange c 0x41 0x46 then
    c.toNat - 0x37
  else
    c.toNat - 0x30

def strtol (a b c d : UInt8) : Nat :=
  ((hexValue a * 16 + hexValue b) * 16 + hexValue c) * 16 + hexValue d

-- the last codepoint and the text written so far, after the escape of `codepoint`
def joinSurrogates (last : Option Nat) (codepoint : Nat) (out : Str) : Option Nat × Str :=
  match last with
  | some lead =>
    if 0xd800 ≤ lead ∧ lead ≤ 0xdbff ∧ 0xdc00 ≤ codepoint ∧ codepoint ≤ 0xdfff then
      (none, out ++ encodeUtf8 (some (((lead - 0xd800) <<< 10 ||| (codepoint - 0xdc00)) + 0x10000)))
    else
      (some codepoint, out ++ encodeUtf8 last)
  | none => (some codepoint, out ++ encodeUtf8 last)

def simpleEscape (ch : UInt8) : Option UInt8 :=
  if ch = 0x62 then
    some 0x08
  else if ch = 0x66 then
    some 0x0c
  else if ch = 0x6e then
    some 0x0a
  else if ch = 0x72 then
    some 0x0d
  else if ch = 0x74 then
    some 0x09
  else if ch = 0x22 ∨ ch = 0x5c ∨ ch = 0x2f then
    some ch
  else
    none

def parseString (out : Str) (last : Option Nat) : Str → Except Str (Str × Str)
  | [] => throw (lit "unexpected end of input in string")
  | ch :: s =>
    if ch = 0x22 then
      return (out ++ encodeUtf8 last, s)
    else if ch ≤ 0x1f then
      throw (lit "unescaped " ++ esc ch ++ lit " in string")
    else if ch ≠ 0x5c then
      parseString (out ++ encodeUtf8 last ++ [ch]) none s
    else
      match s with
      | [] => throw (lit "unexpected end of input in string")
      | 0x75 :: a :: b :: c :: d :: s' =>
        if isHex a && isHex b && isHex c && isHex d then
          let (last, out) := joinSurrogates last (strtol a b c d) out
          parseString out last s'
        else
          throw (lit "bad \\u escape: " ++ [a, b, c, d])
      | e :: s' =>
        if e = 0x75 then
          throw (lit "bad \\u escape: " ++ s')
        else
          match simpleEscape e with
          | some c => parseString (out ++ encodeUtf8 last ++ [c]) none s'
          | none => throw (lit "invalid escape character " ++ esc e)

/-- The integer part of a number: the bytes read and the rest of the input. -/
def integerPart (s : Str) : Except Str (Str × Str) :=
  if peek s = 0x30 then
    if isDigit (peek s.tail) then
      throw (lit "leading 0s not permitted in numbers")
    else
      return ([0x30], s.tail)
  else if inRange (peek s) 0x31 0x39 then
    return (s.takeWhile isDigit, s.dropWhile isDigit)
  else
    throw (lit "invalid " ++ esc (peek s) ++ lit " in number")

def decimalPart (s : Str) : Except Str (Str × Str) :=
  if peek s = 0x2e then
    if isDigit (peek s.tail) then
      return (0x2e :: s.tail.takeWhile isDigit, s.tail.dropWhile isDigit)
    else
      throw (lit "at least one digit required in fractional part")
  else
    return ([], s)

def signPart (s : Str) : Str × Str :=
  if peek s = 0x2b ∨ peek s = 0x2d then
    ([peek s], s.tail)
  else
    ([], s)

def exponentPart (s : Str) : Except Str (Str × Str) :=
  if peek s = 0x65 ∨ peek s = 0x45 then
    let (sign, t) := signPart s.tail
    if isDigit (peek t) then
      return (peek s :: sign ++ t.takeWhile isDigit, t.dropWhile isDigit)
    else
      throw (lit "at least one digit required in exponent")
  else
    return ([], s)

def minusPart (s : Str) : Str × Str :=
  if peek s = 0x2d then
    ([0x2d], s.tail)
  else
    ([], s)

variable (F : Double)

/--
`parse_number`. `strtod` reads the longest number at `start_pos`; the bytes just read are that
number, as none of the bytes that could continue it follows them.
-/
def parseNumber (s : Str) : Except Str (Json F × Str) := do
  let (minus, s) := minusPart s
  let (digits, s) ← integerPart s
  let number := minus ++ digits
  if peek s ≠ 0x2e ∧ peek s ≠ 0x65 ∧ peek s ≠ 0x45 ∧ number.length ≤ 9 then
    return (.int (atoi number), s)
  else
    let (decimals, s) ← decimalPart s
    let (exponent, s) ← exponentPart s
    return (.double (F.strtod (number ++ decimals ++ exponent)), s)

variable {F}

/-- `expect`, from the byte just read on. -/
def expect (expected : Str) (res : Json F) (s : Str) : Except Str (Json F × Str) :=
  if s.take expected.length = expected then
    return (res, s.drop expected.length)
  else
    throw (lit "parse error: expected " ++ expected ++ lit ", got " ++ s.take expected.length)

/--
The loop over the members of an object, whose next token `ch` is read already. Every pass consumes
input, so the bound on the passes, the length of the input, is never reached.
-/
def parseMembers (value : Str → Except Str (Json F × Str))
    : Nat → UInt8 → Str → List (Str × Json F) → Except Str (Json F × Str)
  | 0, _, _, _ => throw []
  | n + 1, ch, s, data =>
    if ch ≠ 0x22 then
      throw (lit "expected '\"' in object, got " ++ esc ch)
    else do
      let (key, s) ← parseString [] none s
      let (ch, s) ← getNextToken s
      if ch ≠ 0x3a then
        throw (lit "expected ':' in object, got " ++ esc ch)
      else
        let (v, s) ← value s
        let (ch, s) ← getNextToken s
        if ch = 0x7d then
          return (.object (Json.insert key v data), s)
        else if ch ≠ 0x2c then
          throw (lit "expected ',' in object, got " ++ esc ch)
        else
          let (ch, s) ← getNextToken s
          parseMembers value n ch s (Json.insert key v data)

/-- The loop over the elements of a list, from the first byte of an element on. -/
def parseElements (value : Str → Except Str (Json F × Str))
    : Nat → Str → List (Json F) → Except Str (Json F × Str)
  | 0, _, _ => throw []
  | n + 1, s, data => do
    let (v, s) ← value s
    let (ch, s) ← getNextToken s
    if ch = 0x5d then
      return (.array (data ++ [v]), s)
    else if ch ≠ 0x2c then
      throw (lit "expected ',' in list, got " ++ esc ch)
    else
      let (ch, s) ← getNextToken s
      parseElements value n (ch :: s) (data ++ [v])

variable (F)

/-- `parse_json` at the depth from which `levels` further levels of nesting are within `max_depth`. -/
def parseJson (levels : Nat) (s : Str) : Except Str (Json F × Str) :=
  match levels with
  | 0 => throw (lit "exceeded maximum nesting depth")
  | levels + 1 => do
    let (ch, s) ← getNextToken s
    if ch = 0x2d ∨ isDigit ch then
      parseNumber F (ch :: s)
    else if ch = 0x74 then
      expect (lit "true") (.bool true) (ch :: s)
    else if ch = 0x66 then
      expect (lit "false") (.bool false) (ch :: s)
    else if ch = 0x6e then
      expect (lit "null") .null (ch :: s)
    else if ch = 0x22 then
      let (value, s) ← parseString [] none s
      return (.string value, s)
    else if ch = 0x7b then
      let (ch, s) ← getNextToken s
      if ch = 0x7d then
        return (.object [], s)
      else
        parseMembers (parseJson levels) (s.length + 1) ch s []
    else if ch = 0x5b then
      let (ch, s) ← getNextToken s
      if ch = 0x5d then
        return (.array [], s)
      else
        parseElements (parseJson levels) (s.length + 1) (ch :: s) []
    else
      throw (lit "expected value, got " ++ esc ch)

/-- The value a text denotes, or the message with which json11 refuses it. -/
def parseText (str : Str) : Except Str (Json F) := do
  let (result, s) ← parseJson F (maxDepth + 1) str
  match consumeWhitespace s with
  | [] => return result
  | c :: _ => throw (lit "unexpected trailing " ++ esc c)

/-- `Json::parse`: the result and the error text, which is empty on success. -/
def parse (str : Str) : Json F × Str :=
  match parseText F str with
  | .ok result => (result, [])
  | .error err => (.null, err)

end Json11
