import LedgerApp.Bytes
import LedgerApp.Transcode

/-!
The texts that cross the bridge to Java, where a `std::string` becomes a sequence of UTF-16 code
units and the other way round. What cannot be decoded is replaced by U+FFFD, one unit at a time.
-/

namespace Djinni

open Transcode

structure OffsetPt where
  offset : Int
  pt : Nat
deriving DecidableEq, Repr

def invalidPt : OffsetPt where
  offset := -1
  pt := 0

-- behind the last unit there is the terminating NUL
def byteAt (str : Str) (i : Nat) : Nat :=
  (str.getD i 0).toNat

def unitAt (str : List UInt16) (i : Nat) : Nat :=
  (str.getD i 0).toNat

-- `str` from the index on
def utf8DecodeCheck (str : Str) : OffsetPt :=
  let b0 := byteAt str 0
  let b1 := byteAt str 1
  let b2 := byteAt str 2
  let b3 := byteAt str 3
  if b0 < 0x80 then
    { offset := 1, pt := b0 }
  else if b0 < 0xc0 then
    invalidPt
  else if b0 < 0xe0 then
    if b1 &&& 0xc0 ≠ 0x80 then
      invalidPt
    else
      let pt := (b0 &&& 0x1f) <<< 6 ||| (b1 &&& 0x3f)
      if pt < 0x80 then invalidPt else { offset := 2, pt }
  else if b0 < 0xf0 then
    if b1 &&& 0xc0 ≠ 0x80 then
      invalidPt
    else if b2 &&& 0xc0 ≠ 0x80 then
      invalidPt
    else
      let pt := (b0 &&& 0x0f) <<< 12 ||| (b1 &&& 0x3f) <<< 6 ||| (b2 &&& 0x3f)
      if pt < 0x800 then invalidPt else { offset := 3, pt }
  else if b0 < 0xf8 then
    if b1 &&& 0xc0 ≠ 0x80 then
      invalidPt
    else if b2 &&& 0xc0 ≠ 0x80 then
      invalidPt
    else if b3 &&& 0xc0 ≠ 0x80 then
      invalidPt
    else
      let pt := (b0 &&& 0x0f) <<< 18 ||| (b1 &&& 0x3f) <<< 12 ||| (b2 &&& 0x3f) <<< 6 ||| (b3 &&& 0x3f)
      if pt < 0x10000 ∨ pt ≥ 0x110000 then invalidPt else { offset := 4, pt }
  else
    invalidPt

-- the code point, and by how much the index moves on
def OffsetPt.resolve (res : OffsetPt) : Nat × Nat :=
  if res.offset < 0 then (0xfffd, 1) else (res.pt, res.offset.toNat)

def utf8Decode (str : Str) : Nat × Nat :=
  (utf8DecodeCheck str).resolve

def utf16Encode (pt : Nat) : List UInt16 :=
  if pt < 0x10000 then
    [UInt16.ofNat pt]
  else if pt < 0x110000 then
    [UInt16.ofNat (((pt - 0x10000) >>> 10) + 0xd800), UInt16.ofNat ((pt &&& 0x3ff) + 0xdc00)]
  else
    [0xfffd]

def jniStringFromUTF8 (str : Str) : List UInt16 :=
  run utf8Decode utf16Encode str

def isHighSurrogate (c : Nat) : Bool :=
  c ≥ 0xd800 && c < 0xdc00

def isLowSurrogate (c : Nat) : Bool :=
  c ≥ 0xdc00 && c < 0xe000

def utf16DecodeCheck (str : List UInt16) : OffsetPt :=
  let c0 := unitAt str 0
  let c1 := unitAt str 1
  if isHighSurrogate c0 && isLowSurrogate c1 then
    { offset := 2, pt := ((c0 - 0xd800) <<< 10 ||| (c1 - 0xdc00)) + 0x10000 }
  else if isHighSurrogate c0 || isLowSurrogate c0 then
    invalidPt
  else
    { offset := 1, pt := c0 }

def utf16Decode (str : List UInt16) : Nat × Nat :=
  (utf16DecodeCheck str).resolve

def utf8Encode (pt : Nat) : Str :=
  if pt < 0x80 then
    [UInt8.ofNat pt]
  else if pt < 0x800 then
    [UInt8.ofNat (pt >>> 6 ||| 0xc0), UInt8.ofNat ((pt &&& 0x3f) ||| 0x80)]
  else if pt < 0x10000 then
    [UInt8.ofNat (pt >>> 12 ||| 0xe0), UInt8.ofNat ((pt >>> 6 &&& 0x3f) ||| 0x80),
      UInt8.ofNat ((pt &&& 0x3f) ||| 0x80)]
  else if pt < 0x110000 then
    [UInt8.ofNat (pt >>> 18 ||| 0xf0), UInt8.ofNat ((pt >>> 12 &&& 0x3f) ||| 0x80),
      UInt8.ofNat ((pt >>> 6 &&& 0x3f) ||| 0x80), UInt8.ofNat ((pt &&& 0x3f) ||| 0x80)]
  else
    [0xef, 0xbf, 0xbd]

def jniUTF8FromString (str : List UInt16) : Str :=
  run utf16Decode utf8Encode str

end Djinni
