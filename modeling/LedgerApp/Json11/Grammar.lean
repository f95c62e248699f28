import LedgerApp.Json11.Parse

/-!
The JSON texts and what they denote, independent of how a text is read: the grammar of values with
white space between the tokens, and a bound on the nesting.
-/

namespace Json11

open Bytes

def White (s : Str) : Prop :=
  ∀ c ∈ s, isSpace c = true

/-! ## Strings -/

/-- What stands for one byte, or for one UTF-16 code unit, between the quotes of a string. -/
inductive StringUnit where
  | plain (c : UInt8)
  | simple (e : UInt8)
  | unicode (a b c d : UInt8)
deriving DecidableEq, Repr

inductive Piece where
  | byte (c : UInt8)
  | point (codepoint : Nat)
deriving DecidableEq, Repr

namespace StringUnit

def text : StringUnit → Str
  | .plain c => [c]
  | .simple e => [0x5c, e]
  | .unicode a b c d => [0x5c, 0x75, a, b, c, d]

def Valid : StringUnit → Prop
  | .plain c => ¬c ≤ 0x1f ∧ c ≠ 0x22 ∧ c ≠ 0x5c
  | .simple e => (simpleEscape e).isSome = true
  | .unicode a b c d => (isHex a && isHex b && isHex c && isHex d) = true

def piece : StringUnit → Piece
  | .plain c => .byte c
  | .simple e => .byte ((simpleEscape e).getD e)
  | .unicode a b c d => .point (strtol a b c d)

end StringUnit

def isLead (codepoint : Nat) : Bool :=
  0xd800 ≤ codepoint && codepoint ≤ 0xdbff

def isTrail (codepoint : Nat) : Bool :=
  0xdc00 ≤ codepoint && codepoint ≤ 0xdfff

def astral (lead trail : Nat) : Nat :=
  ((lead - 0xd800) <<< 10 ||| (trail - 0xdc00)) + 0x10000

-- two surrogates next to each other are one character, and any other surrogate is encoded by itself
def joinPieces : List Piece → Str
  | [] => []
  | .byte c :: pieces => c :: joinPieces pieces
  | .point lead :: .point trail :: pieces =>
    if isLead lead && isTrail trail then
      encodeUtf8 (some (astral lead trail)) ++ joinPieces pieces
    else
      encodeUtf8 (some lead) ++ joinPieces (.point trail :: pieces)
  | .point codepoint :: pieces => encodeUtf8 (some codepoint) ++ joinPieces pieces

def unitsText (units : List StringUnit) : Str :=
  units.flatMap StringUnit.text

def quoted (units : List StringUnit) : Str :=
  0x22 :: unitsText units ++ [0x22]

def decode (units : List StringUnit) : Str :=
  joinPieces (units.map StringUnit.piece)

/-! ## Numbers -/

def AllDigits (s : Str) : Prop :=
  ∀ c ∈ s, isDigit c = true

structure Exponent where
  e : UInt8
  sign : Option UInt8
  digits : Str

structure Number where
  minus : Bool
  integer : Str
  fraction : Option Str
  exponent : Option Exponent

def Exponent.text (exponent : Exponent) : Str :=
  exponent.e :: exponent.sign.toList ++ exponent.digits

structure Exponent.Valid (exponent : Exponent) : Prop where
  e : exponent.e = 0x65 ∨ exponent.e = 0x45
  sign : ∀ c ∈ exponent.sign, c = 0x2b ∨ c = 0x2d
  ne_nil : exponent.digits ≠ []
  digits : AllDigits exponent.digits

def fractionText : Option Str → Str
  | some digits => 0x2e :: digits
  | none => []

def exponentText : Option Exponent → Str
  | some exponent => exponent.text
  | none => []

structure IsInteger (s : Str) : Prop where
  ne_nil : s ≠ []
  digits : AllDigits s
  leading : peek s = 0x30 → s = [0x30]

def IsFraction (fraction : Option Str) : Prop :=
  ∀ digits ∈ fraction, digits ≠ [] ∧ AllDigits digits

namespace Number

def integerText (number : Number) : Str :=
  (if number.minus then [0x2d] else []) ++ number.integer

def text (number : Number) : Str :=
  number.integerText ++ fractionText number.fraction ++ exponentText number.exponent

structure Valid (number : Number) : Prop where
  integer : IsInteger number.integer
  fraction : IsFraction number.fraction
  exponent : ∀ exponent ∈ number.exponent, exponent.Valid

-- a number of at most nine characters without a fraction and an exponent is an `int`
def value (F : Double) (number : Number) : Json F :=
  if number.fraction.isNone ∧ number.exponent.isNone ∧ number.integerText.length ≤ 9 then
    .int (atoi number.integerText)
  else
    .double (F.strtod number.text)

end Number

/-! ## Values -/

structure Element (F : Double) where
  before : Str
  text : Str
  value : Json F
  after : Str

structure Member (F : Double) extends Element F where
  key : List StringUnit
  afterKey : Str
  beforeValue : Str

def Element.padded {F : Double} (element : Element F) : Str :=
  element.before ++ element.text ++ element.after

def Member.padded {F : Double} (member : Member F) : Str :=
  member.before ++ quoted member.key ++ member.afterKey ++ 0x3a :: member.beforeValue ++
    member.text ++ member.after

structure Element.Valid {F : Double} (element : Element F) : Prop where
  before : White element.before
  after : White element.after

structure Member.Valid {F : Double} (member : Member F) : Prop extends
    Element.Valid member.toElement where
  key : ∀ unit ∈ member.key, unit.Valid
  afterKey : White member.afterKey
  beforeValue : White member.beforeValue

-- of two members with one key the last one counts
def fieldsOf {F : Double} (members : List (Member F)) : List (Str × Json F) :=
  members.foldl (fun fields member => Json.insert (decode member.key) member.value fields) []

variable (F : Double)

/-- The text of a value that is nested at most `levels` deep. -/
inductive Denotes : Nat → Str → Json F → Prop where
  | null {levels : Nat} : Denotes (levels + 1) (lit "null") .null
  | true {levels : Nat} : Denotes (levels + 1) (lit "true") (.bool true)
  | false {levels : Nat} : Denotes (levels + 1) (lit "false") (.bool false)
  | number {levels : Nat} {number : Number} (h : number.Valid)
    : Denotes (levels + 1) number.text (number.value F)
  | string {levels : Nat} {units : List StringUnit} (h : ∀ unit ∈ units, unit.Valid)
    : Denotes (levels + 1) (quoted units) (.string (decode units))
  | emptyArray {levels : Nat} {white : Str} (h : White white)
    : Denotes (levels + 1) (0x5b :: white ++ [0x5d]) (.array [])
  | array {levels : Nat} {elements : List (Element F)} (hne : elements ≠ [])
    (h : ∀ element ∈ elements, element.Valid)
    (hvalue : ∀ element ∈ elements, Denotes levels element.text element.value)
    : Denotes (levels + 1) (0x5b :: [0x2c].intercalate (elements.map Element.padded) ++ [0x5d])
        (.array (elements.map (·.value)))
  | emptyObject {levels : Nat} {white : Str} (h : White white)
    : Denotes (levels + 1) (0x7b :: white ++ [0x7d]) (.object [])
  | object {levels : Nat} {members : List (Member F)} (hne : members ≠ [])
    (h : ∀ member ∈ members, member.Valid)
    (hvalue : ∀ member ∈ members, Denotes levels member.text member.value)
    : Denotes (levels + 1) (0x7b :: [0x2c].intercalate (members.map Member.padded) ++ [0x7d])
        (.object (fieldsOf members))

def IsText (str : Str) (v : Json F) : Prop :=
  ∃ before text after, White before ∧ White after ∧ str = before ++ text ++ after
    ∧ Denotes F (maxDepth + 1) text v

end Json11
