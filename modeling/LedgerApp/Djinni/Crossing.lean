import LedgerApp.Djinni.Strings

/-!
A text that crosses the bridge and comes back. The well formed texts of both encodings stand for the
same sequences of characters, and they are exactly the texts that come back as they were.
-/

namespace Djinni

open Transcode

/-! ## Bits -/

theorem or_continuation : ∀ x < 64, x ||| 0x80 = x + 0x80 := by decide

theorem and_continuation : ∀ x < 64, (x + 0x80) &&& 0xc0 = 0x80 ∧ (x + 0x80) &&& 0x3f = x := by
  decide

theorem or_lead2 : ∀ x < 32, x ||| 0xc0 = x + 0xc0 ∧ (x + 0xc0) &&& 0x1f = x := by decide

theorem or_lead3 : ∀ x < 16, x ||| 0xe0 = x + 0xe0 ∧ (x + 0xe0) &&& 0x0f = x := by decide

theorem or_lead4 : ∀ x < 8, x ||| 0xf0 = x + 0xf0 ∧ (x + 0xf0) &&& 0x0f = x := by decide

theorem join2 (a : Nat) {b : Nat} (hb : b < 64) : a <<< 6 ||| b = a * 64 + b := by
  rw [← Nat.shiftLeft_add_eq_or_of_lt (i := 6) hb, Nat.shiftLeft_eq]

theorem join3 (a : Nat) {b c : Nat} (hb : b < 64) (hc : c < 64)
    : a <<< 12 ||| b <<< 6 ||| c = (a * 64 + b) * 64 + c := by
  rw [Nat.shiftLeft_add a 6 6, ← Nat.shiftLeft_or_distrib, join2 _ hb, join2 _ hc]

theorem join4 (a : Nat) {b c d : Nat} (hb : b < 64) (hc : c < 64) (hd : d < 64)
    : a <<< 18 ||| b <<< 12 ||| c <<< 6 ||| d = ((a * 64 + b) * 64 + c) * 64 + d := by
  rw [Nat.shiftLeft_add a 12 6, Nat.shiftLeft_add b 6 6, ← Nat.shiftLeft_or_distrib,
    ← Nat.shiftLeft_or_distrib, join3 _ hb hc, join2 _ hd]

theorem and_ones6 (n : Nat) : n &&& 0x3f = n % 64 :=
  Nat.and_two_pow_sub_one_eq_mod n 6

theorem and_ones10 (n : Nat) : n &&& 0x3ff = n % 1024 :=
  Nat.and_two_pow_sub_one_eq_mod n 10

/-! ## The words of UTF-8 -/

theorem val_lt (c : Char) : c.val.toNat < 0xd800 ∨ 0xdfff < c.val.toNat ∧ c.val.toNat < 0x110000 :=
  c.valid

theorem point_lt (c : Char) : c.val.toNat < 0x110000 := by
  have := val_lt c
  omega

-- a surrogate has a word as well, though it is no character
def utf8Word (v : Nat) : Str :=
  if v ≤ 0x7f then
    [UInt8.ofNat v]
  else if v ≤ 0x7ff then
    [UInt8.ofNat (v / 64 % 0x20 + 0xc0), UInt8.ofNat (v % 0x40 + 0x80)]
  else if v ≤ 0xffff then
    [UInt8.ofNat (v / 4096 % 0x10 + 0xe0), UInt8.ofNat (v / 64 % 0x40 + 0x80),
      UInt8.ofNat (v % 0x40 + 0x80)]
  else
    [UInt8.ofNat (v / 262144 % 0x08 + 0xf0), UInt8.ofNat (v / 4096 % 0x40 + 0x80),
      UInt8.ofNat (v / 64 % 0x40 + 0x80), UInt8.ofNat (v % 0x40 + 0x80)]

theorem utf8EncodeChar_eq (c : Char) : String.utf8EncodeChar c = utf8Word c.val.toNat := rfl

theorem utf8Encode_eq {v : Nat} (hvalid : v < 0x110000) : utf8Encode v = utf8Word v := by
  unfold utf8Encode utf8Word
  simp only [and_ones6, Nat.shiftRight_eq_div_pow]
  by_cases hone : v < 0x80
  . have hone' : v ≤ 0x7f := by omega
    rw [if_pos hone, if_pos hone']
  . have hone' : ¬v ≤ 0x7f := by omega
    rw [if_neg hone, if_neg hone']
    by_cases htwo : v < 0x800
    . have htwo' : v ≤ 0x7ff := by omega
      rw [if_pos htwo, if_pos htwo', or_continuation _ (Nat.mod_lt _ (by decide)),
        (or_lead2 (v / 2 ^ 6) (by omega)).1, Nat.mod_eq_of_lt (b := 0x20) (by omega)]
    . have htwo' : ¬v ≤ 0x7ff := by omega
      rw [if_neg htwo, if_neg htwo']
      by_cases hthree : v < 0x10000
      . have hthree' : v ≤ 0xffff := by omega
        rw [if_pos hthree, if_pos hthree', or_continuation _ (Nat.mod_lt _ (by decide)),
          or_continuation _ (Nat.mod_lt _ (by decide)), (or_lead3 (v / 2 ^ 12) (by omega)).1,
          Nat.mod_eq_of_lt (b := 0x10) (by omega)]
      . have hthree' : ¬v ≤ 0xffff := by omega
        rw [if_neg hthree, if_neg hthree', if_pos hvalid,
          or_continuation _ (Nat.mod_lt _ (by decide)),
          or_continuation _ (Nat.mod_lt _ (by decide)),
          or_continuation _ (Nat.mod_lt _ (by decide)), (or_lead4 (v / 2 ^ 18) (by omega)).1,
          Nat.mod_eq_of_lt (b := 0x08) (by omega)]

section

variable {b0 b1 b2 b3 : UInt8} {x0 x1 x2 x3 : Nat}

theorem utf8Decode_one (s : Str) (h0 : b0.toNat = x0) (hx0 : x0 < 0x80)
    : utf8Decode (b0 :: s) = (x0, 1) := by
  have hcheck : utf8DecodeCheck (b0 :: s) = { offset := 1, pt := x0 } := by
    simp only [utf8DecodeCheck, byteAt, List.getD_cons_zero, h0]
    rw [if_pos hx0]
  rw [utf8Decode, hcheck]
  rfl

theorem utf8Decode_two (s : Str) (h0 : b0.toNat = x0 + 0xc0) (h1 : b1.toNat = x1 + 0x80)
    (hx0 : x0 < 32) (hx1 : x1 < 64) (hpt : 0x80 ≤ x0 * 64 + x1)
    : utf8Decode (b0 :: b1 :: s) = (x0 * 64 + x1, 2) := by
  have hcheck : utf8DecodeCheck (b0 :: b1 :: s) = { offset := 2, pt := x0 * 64 + x1 } := by
    simp only [utf8DecodeCheck, byteAt, List.getD_cons_zero, List.getD_cons_succ, h0, h1,
      (and_continuation x1 hx1).1, (and_continuation x1 hx1).2, (or_lead2 x0 hx0).2, join2 x0 hx1]
    rw [if_neg (by omega), if_neg (by omega), if_pos (by omega), if_neg (by omega),
      if_neg (by omega)]
  rw [utf8Decode, hcheck]
  rfl

theorem utf8Decode_three (s : Str) (h0 : b0.toNat = x0 + 0xe0) (h1 : b1.toNat = x1 + 0x80)
    (h2 : b2.toNat = x2 + 0x80) (hx0 : x0 < 16) (hx1 : x1 < 64) (hx2 : x2 < 64)
    (hpt : 0x800 ≤ (x0 * 64 + x1) * 64 + x2)
    : utf8Decode (b0 :: b1 :: b2 :: s) = ((x0 * 64 + x1) * 64 + x2, 3) := by
  have hcheck : utf8DecodeCheck (b0 :: b1 :: b2 :: s)
      = { offset := 3, pt := (x0 * 64 + x1) * 64 + x2 } := by
    simp only [utf8DecodeCheck, byteAt, List.getD_cons_zero, List.getD_cons_succ, h0, h1, h2,
      (and_continuation x1 hx1).1, (and_continuation x1 hx1).2, (and_continuation x2 hx2).1,
      (and_continuation x2 hx2).2, (or_lead3 x0 hx0).2, join3 x0 hx1 hx2]
    rw [if_neg (by omega), if_neg (by omega), if_neg (by omega), if_pos (by omega),
      if_neg (by omega), if_neg (by omega), if_neg (by omega)]
  rw [utf8Decode, hcheck]
  rfl

theorem utf8Decode_four (s : Str) (h0 : b0.toNat = x0 + 0xf0) (h1 : b1.toNat = x1 + 0x80)
    (h2 : b2.toNat = x2 + 0x80) (h3 : b3.toNat = x3 + 0x80) (hx0 : x0 < 8) (hx1 : x1 < 64)
    (hx2 : x2 < 64) (hx3 : x3 < 64) (hpt : 0x10000 ≤ ((x0 * 64 + x1) * 64 + x2) * 64 + x3)
    (hpt' : ((x0 * 64 + x1) * 64 + x2) * 64 + x3 < 0x110000)
    : utf8Decode (b0 :: b1 :: b2 :: b3 :: s) = (((x0 * 64 + x1) * 64 + x2) * 64 + x3, 4) := by
  have hcheck : utf8DecodeCheck (b0 :: b1 :: b2 :: b3 :: s)
      = { offset := 4, pt := ((x0 * 64 + x1) * 64 + x2) * 64 + x3 } := by
    simp only [utf8DecodeCheck, byteAt, List.getD_cons_zero, List.getD_cons_succ, h0, h1, h2, h3,
      (and_continuation x1 hx1).1, (and_continuation x1 hx1).2, (and_continuation x2 hx2).1,
      (and_continuation x2 hx2).2, (and_continuation x3 hx3).1, (and_continuation x3 hx3).2,
      (or_lead4 x0 hx0).2, join4 x0 hx1 hx2 hx3]
    rw [if_neg (by omega), if_neg (by omega), if_neg (by omega), if_neg (by omega),
      if_pos (by omega), if_neg (by omega), if_neg (by omega), if_neg (by omega), if_neg (by omega)]
  rw [utf8Decode, hcheck]
  rfl

end

theorem toNat_ofNat {n : Nat} (h : n < 256) : (UInt8.ofNat n).toNat = n := by
  rw [UInt8.toNat_ofNat', Nat.mod_eq_of_lt h]

theorem utf8Decode_word {v : Nat} (hvalid : v < 0x110000) (s : Str)
    : utf8Decode (utf8Word v ++ s) = (v, (utf8Word v).length) := by
  unfold utf8Word
  by_cases hone : v ≤ 0x7f
  . rw [if_pos hone]
    exact utf8Decode_one s (toNat_ofNat (by omega)) (by omega)
  . rw [if_neg hone]
    by_cases htwo : v ≤ 0x7ff
    . have hv : v / 64 % 0x20 * 64 + v % 0x40 = v := by omega
      have htwo' := utf8Decode_two s (toNat_ofNat (n := v / 64 % 0x20 + 0xc0) (by omega))
        (toNat_ofNat (n := v % 0x40 + 0x80) (by omega)) (by omega) (by omega) (by omega)
      rw [hv] at htwo'
      rw [if_pos htwo]
      exact htwo'
    . rw [if_neg htwo]
      by_cases hthree : v ≤ 0xffff
      . have hv : (v / 4096 % 0x10 * 64 + v / 64 % 0x40) * 64 + v % 0x40 = v := by omega
        have hthree' := utf8Decode_three s
          (toNat_ofNat (n := v / 4096 % 0x10 + 0xe0) (by omega))
          (toNat_ofNat (n := v / 64 % 0x40 + 0x80) (by omega))
          (toNat_ofNat (n := v % 0x40 + 0x80) (by omega)) (by omega) (by omega) (by omega)
          (by omega)
        rw [hv] at hthree'
        rw [if_pos hthree]
        exact hthree'
      . have hv : ((v / 262144 % 0x08 * 64 + v / 4096 % 0x40) * 64 + v / 64 % 0x40) * 64 + v % 0x40
            = v := by omega
        have hfour := utf8Decode_four s
          (toNat_ofNat (n := v / 262144 % 0x08 + 0xf0) (by omega))
          (toNat_ofNat (n := v / 4096 % 0x40 + 0x80) (by omega))
          (toNat_ofNat (n := v / 64 % 0x40 + 0x80) (by omega))
          (toNat_ofNat (n := v % 0x40 + 0x80) (by omega)) (by omega) (by omega) (by omega)
          (by omega) (by omega) (by omega)
        rw [hv] at hfour
        rw [if_neg hthree]
        exact hfour

-- the terminating NUL continues nothing, so no character ends behind the last byte
theorem lt_length_of_continuation {s : Str} {i : Nat} (h : ¬byteAt s i &&& 0xc0 ≠ 0x80)
    : i < s.length := by
  by_contra hle
  apply h
  have hnul : byteAt s i = 0 := by
    rw [byteAt, List.getD_eq_getElem?_getD, List.getElem?_eq_none (Nat.le_of_not_lt hle)]
    rfl
  rw [hnul]
  decide

theorem length_utf16Encode (pt : Nat) : (utf16Encode pt).length ≤ 2 := by
  unfold utf16Encode
  split
  . simp
  . split
    . simp
    . simp

structure Fits (s : Str) (n pt : Nat) : Prop where
  advances : 0 < n
  within : s ≠ [] → n ≤ s.length
  written : (utf16Encode pt).length ≤ n

inductive Decoded (s : Str) : OffsetPt → Prop
  | invalid : Decoded s invalidPt
  | valid (n pt : Nat) (h : Fits s n pt) : Decoded s { offset := n, pt }

theorem decoded_utf8 (s : Str) : Decoded s (utf8DecodeCheck s) := by
  have hlong : ∀ {n pt : Nat}, 2 ≤ n → n ≤ s.length → Fits s n pt := by
    intro n pt hn hlength
    refine ⟨by omega, fun _ => hlength, ?_⟩
    exact Nat.le_trans (length_utf16Encode pt) hn
  unfold utf8DecodeCheck
  dsimp only
  split
  . next hone =>
    refine .valid 1 _ ⟨by decide, List.length_pos_iff.mpr, ?_⟩
    rw [utf16Encode, if_pos (by omega)]
    exact Nat.le_refl 1
  split
  . exact .invalid
  split
  . split
    . exact .invalid
    next h1 =>
    split
    . exact .invalid
    . exact .valid 2 _ (hlong (by decide) (lt_length_of_continuation h1))
  split
  . split
    . exact .invalid
    split
    . exact .invalid
    next h2 =>
    split
    . exact .invalid
    . exact .valid 3 _ (hlong (by decide) (lt_length_of_continuation h2))
  split
  . split
    . exact .invalid
    split
    . exact .invalid
    split
    . exact .invalid
    next h3 =>
    split
    . exact .invalid
    . exact .valid 4 _ (hlong (by decide) (lt_length_of_continuation h3))
  . exact .invalid

theorem utf8Decode_fits (s : Str) : Fits s (utf8Decode s).2 (utf8Decode s).1 := by
  unfold utf8Decode
  generalize hres : utf8DecodeCheck s = res
  have hdecoded := decoded_utf8 s
  rw [hres] at hdecoded
  cases hdecoded with
  | invalid => exact ⟨by decide, List.length_pos_iff.mpr, by decide⟩
  | valid n pt h => exact h

theorem utf8Word_ne_nil (v : Nat) : utf8Word v ≠ [] := by
  unfold utf8Word
  split
  . simp
  split
  . simp
  split
  . simp
  . simp

theorem reads_points : Reads utf8Decode (fun v : Fin 0x110000 => utf8Word v) Fin.val where
  advances := fun s => (utf8Decode_fits s).advances
  ne_nil := fun v => utf8Word_ne_nil v
  head := fun v => utf8Decode_word v.isLt

theorem reads_utf8 : Reads utf8Decode String.utf8EncodeChar (fun c => c.val.toNat) :=
  reads_points.comp fun c : Char => ⟨c.val.toNat, point_lt c⟩

theorem writes_utf8 : Writes utf8Encode String.utf8EncodeChar (fun c => c.val.toNat) := by
  intro c
  rw [utf8EncodeChar_eq]
  exact utf8Encode_eq (point_lt c)

/-! ## The words of UTF-16 -/

def utf16EncodeChar (c : Char) : List UInt16 :=
  let v := c.val.toNat
  if v < 0x10000 then
    [UInt16.ofNat v]
  else
    [UInt16.ofNat ((v - 0x10000) / 0x400 + 0xd800), UInt16.ofNat ((v - 0x10000) % 0x400 + 0xdc00)]

theorem utf16Encode_char (c : Char) : utf16Encode c.val.toNat = utf16EncodeChar c := by
  have hvalid := val_lt c
  unfold utf16Encode utf16EncodeChar
  generalize c.val.toNat = v at hvalid
  simp only [and_ones10, Nat.shiftRight_eq_div_pow]
  by_cases hone : v < 0x10000
  . rw [if_pos hone, if_pos hone]
  . have hlow : (v - 0x10000) % 0x400 = v % 1024 := by omega
    have htwo : v < 0x110000 := by omega
    rw [if_neg hone, if_neg hone, if_pos htwo, hlow]

theorem exists_char {v : Nat} (h : v < 0xd800 ∨ 0xdfff < v ∧ v < 0x110000)
    : ∃ c : Char, v = c.val.toNat :=
  ⟨Char.ofNatAux v h, rfl⟩

theorem unit_toNat {n : Nat} (h : n < 0x10000) : (UInt16.ofNat n).toNat = n := by
  rw [UInt16.toNat_ofNat', Nat.mod_eq_of_lt h]

theorem isHighSurrogate_iff (c : Nat) : isHighSurrogate c = true ↔ 0xd800 ≤ c ∧ c < 0xdc00 := by
  simp [isHighSurrogate]

theorem isLowSurrogate_iff (c : Nat) : isLowSurrogate c = true ↔ 0xdc00 ≤ c ∧ c < 0xe000 := by
  simp [isLowSurrogate]

theorem utf16Decode_single {c : UInt16} (s : List UInt16)
    (h : c.toNat < 0xd800 ∨ 0xdfff < c.toNat) : utf16Decode (c :: s) = (c.toNat, 1) := by
  have hhigh : isHighSurrogate c.toNat = false := by
    rw [Bool.eq_false_iff, ne_eq, isHighSurrogate_iff]
    omega
  have hlow : isLowSurrogate c.toNat = false := by
    rw [Bool.eq_false_iff, ne_eq, isLowSurrogate_iff]
    omega
  have hcheck : utf16DecodeCheck (c :: s) = { offset := 1, pt := c.toNat } := by
    simp [utf16DecodeCheck, unitAt, hhigh, hlow]
  rw [utf16Decode, hcheck]
  rfl

theorem utf16Decode_pair {c d : UInt16} {x y : Nat} (s : List UInt16)
    (hc : c.toNat = x + 0xd800) (hd : d.toNat = y + 0xdc00) (hx : x < 1024) (hy : y < 1024)
    : utf16Decode (c :: d :: s) = (x * 1024 + y + 0x10000, 2) := by
  have hhigh : isHighSurrogate c.toNat = true := by
    rw [isHighSurrogate_iff]
    omega
  have hlow : isLowSurrogate d.toNat = true := by
    rw [isLowSurrogate_iff]
    omega
  have hpt : (c.toNat - 0xd800) <<< 10 ||| (d.toNat - 0xdc00) = x * 1024 + y := by
    rw [hc, hd, Nat.add_sub_cancel, Nat.add_sub_cancel,
      ← Nat.shiftLeft_add_eq_or_of_lt (i := 10) hy, Nat.shiftLeft_eq]
  have hcheck : utf16DecodeCheck (c :: d :: s)
      = { offset := 2, pt := x * 1024 + y + 0x10000 } := by
    simp [utf16DecodeCheck, unitAt, hhigh, hlow, hpt]
  rw [utf16Decode, hcheck]
  rfl

theorem utf16Decode_char (c : Char) (s : List UInt16)
    : utf16Decode (utf16EncodeChar c ++ s) = (c.val.toNat, (utf16EncodeChar c).length) := by
  have hvalid := val_lt c
  unfold utf16EncodeChar
  generalize c.val.toNat = v at hvalid
  dsimp only
  by_cases hone : v < 0x10000
  . have hunit := unit_toNat hone
    have hsingle := utf16Decode_single (c := UInt16.ofNat v) s (by rw [hunit]; omega)
    rw [hunit] at hsingle
    rw [if_pos hone]
    exact hsingle
  . have hv : (v - 0x10000) / 0x400 * 1024 + (v - 0x10000) % 0x400 + 0x10000 = v := by omega
    have hpair := utf16Decode_pair s
      (unit_toNat (n := (v - 0x10000) / 0x400 + 0xd800) (by omega))
      (unit_toNat (n := (v - 0x10000) % 0x400 + 0xdc00) (by omega)) (by omega) (by omega)
    rw [hv] at hpair
    rw [if_neg hone]
    exact hpair

theorem utf16Decode_advances (s : List UInt16) : 0 < (utf16Decode s).2 := by
  unfold utf16Decode utf16DecodeCheck
  dsimp only
  split
  . exact Nat.zero_lt_two
  . split
    . exact Nat.zero_lt_one
    . exact Nat.zero_lt_one

-- an unpaired surrogate is replaced, and nothing else that is decoded is one
theorem utf16Decode_valid (s : List UInt16) : ∃ c : Char, (utf16Decode s).1 = c.val.toNat := by
  apply exists_char
  unfold utf16Decode utf16DecodeCheck
  have hunit : unitAt s 0 < 0x10000 := (s.getD 0 0).toNat_lt
  generalize unitAt s 0 = c at hunit
  generalize unitAt s 1 = d
  dsimp only
  split
  . next hpair =>
    rw [Bool.and_eq_true, isHighSurrogate_iff, isLowSurrogate_iff] at hpair
    have hd : d - 0xdc00 < 2 ^ 10 := by omega
    simp only [OffsetPt.resolve]
    rw [if_neg (by decide)]
    dsimp only
    rw [← Nat.shiftLeft_add_eq_or_of_lt hd, Nat.shiftLeft_eq]
    omega
  . split
    . decide
    . next hsingle =>
      rw [Bool.or_eq_true, isHighSurrogate_iff, isLowSurrogate_iff] at hsingle
      simp only [OffsetPt.resolve]
      rw [if_neg (by decide)]
      dsimp only
      omega

theorem utf16EncodeChar_ne_nil (c : Char) : utf16EncodeChar c ≠ [] := by
  unfold utf16EncodeChar
  dsimp only
  split
  . simp
  . simp

theorem reads_utf16 : Reads utf16Decode utf16EncodeChar (fun c => c.val.toNat) where
  advances := utf16Decode_advances
  ne_nil := utf16EncodeChar_ne_nil
  head := utf16Decode_char

theorem writes_utf16 : Writes utf16Encode utf16EncodeChar (fun c => c.val.toNat) :=
  utf16Encode_char

/-! ## There and back -/

theorem wellFormed_jniUTF8FromString (u : List UInt16)
    : WellFormed String.utf8EncodeChar (jniUTF8FromString u) :=
  wellFormed_run utf16Decode_valid writes_utf8 u

theorem jniStringFromUTF8_flatMap (chars : List Char)
    : jniStringFromUTF8 (chars.flatMap String.utf8EncodeChar) = chars.flatMap utf16EncodeChar :=
  run_flatMap reads_utf8 writes_utf16 chars

theorem jniUTF8FromString_flatMap (chars : List Char)
    : jniUTF8FromString (chars.flatMap utf16EncodeChar) = chars.flatMap String.utf8EncodeChar :=
  run_flatMap reads_utf16 writes_utf8 chars

theorem length_jniStringFromUTF8_le (s : Str) : (jniStringFromUTF8 s).length ≤ s.length := by
  apply length_run_le
  intro t ht
  have hfits := utf8Decode_fits t
  exact ⟨hfits.written, hfits.within ht⟩

theorem comes_back_utf8 (s : Str)
    : jniUTF8FromString (jniStringFromUTF8 s) = s ↔ WellFormed String.utf8EncodeChar s := by
  constructor
  . intro h
    rw [← h]
    exact wellFormed_jniUTF8FromString _
  . rintro ⟨chars, rfl⟩
    rw [jniStringFromUTF8_flatMap, jniUTF8FromString_flatMap]

theorem comes_back_utf16 (u : List UInt16)
    : jniStringFromUTF8 (jniUTF8FromString u) = u ↔ WellFormed utf16EncodeChar u := by
  constructor
  . intro h
    rcases wellFormed_jniUTF8FromString u with ⟨chars, hchars⟩
    rw [hchars, jniStringFromUTF8_flatMap] at h
    exact ⟨chars, h.symm⟩
  . rintro ⟨chars, rfl⟩
    rw [jniUTF8FromString_flatMap, jniStringFromUTF8_flatMap]

theorem comes_back
    : (∀ s : Str, jniUTF8FromString (jniStringFromUTF8 s) = s ↔ WellFormed String.utf8EncodeChar s)
      ∧ (∀ u, jniStringFromUTF8 (jniUTF8FromString u) = u ↔ WellFormed utf16EncodeChar u)
      ∧ ∀ s : Str, (jniStringFromUTF8 s).length ≤ s.length :=
  ⟨comes_back_utf8, comes_back_utf16, length_jniStringFromUTF8_le⟩

end Djinni
