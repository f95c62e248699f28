import Mathlib.Data.List.Induction
import LedgerApp.Djinni.Crossing
import LedgerApp.Json11.Lemmas.Accepts

/-!
A string of a JSON text on its way to Java. The parser encodes what it decodes in UTF-8, surrogates
included, and the bridge decodes that again: Java gets the code units that the JSON text denotes.
-/

namespace Djinni

open Bytes Json11 Transcode

/-- What stands in a JSON string for one character, or for one code unit. -/
inductive Part where
  | char (c : Char)
  | simple (e : UInt8)
  | unicode (a b c d : UInt8)

namespace Part

def units : Part → List StringUnit
  | .char c => (String.utf8EncodeChar c).map .plain
  | .simple e => [.simple e]
  | .unicode a b c d => [.unicode a b c d]

def codeUnits : Part → List UInt16
  | .char c => utf16EncodeChar c
  | .simple e => [UInt16.ofNat ((simpleEscape e).getD e).toNat]
  | .unicode a b c d => [UInt16.ofNat (strtol a b c d)]

def pieces (part : Part) : List Piece :=
  part.units.map StringUnit.piece

def Valid (part : Part) : Prop :=
  ∀ unit ∈ part.units, unit.Valid

end Part

/-! ## Pieces -/

theorem encodeUtf8_eq {pt : Nat} (h : pt < 0x110000) : encodeUtf8 (some pt) = utf8Word pt := by
  rw [← utf8Encode_eq h, encodeUtf8, utf8Encode, if_pos h]

theorem run_point {pt : Nat} (h : pt < 0x110000) (s : Str)
    : jniStringFromUTF8 (encodeUtf8 (some pt) ++ s) = utf16Encode pt ++ jniStringFromUTF8 s := by
  rw [encodeUtf8_eq h]
  exact run_word reads_points ⟨pt, h⟩ s

theorem joinPieces_bytes (bytes : Str) (pieces : List Piece)
    : joinPieces (bytes.map .byte ++ pieces) = bytes ++ joinPieces pieces := by
  induction bytes with
  | nil => rfl
  | cons c bytes ih =>
    rw [List.map_cons, List.cons_append, joinPieces, ih, List.cons_append]

theorem joinPieces_point {codepoint : Nat} {pieces : List Piece}
    (h : ∀ trail later, pieces ≠ .point trail :: later)
    : joinPieces (.point codepoint :: pieces)
        = encodeUtf8 (some codepoint) ++ joinPieces pieces := by
  cases pieces with
  | nil => rfl
  | cons piece pieces =>
    cases piece with
    | byte c => rfl
    | point trail => exact absurd rfl (h trail pieces)

theorem hexValue_lt {c : UInt8} (h : isHex c = true) : hexValue c < 16 := by
  simp only [isHex, Bytes.inRange, Bool.or_eq_true, Bool.and_eq_true, decide_eq_true_eq,
    UInt8.le_iff_toNat_le, UInt8.reduceToNat] at h
  simp only [hexValue, Bytes.inRange, Bool.and_eq_true, decide_eq_true_eq,
    UInt8.le_iff_toNat_le, UInt8.reduceToNat]
  split
  . omega
  split
  . omega
  . omega

theorem strtol_lt {a b c d : UInt8} (h : (StringUnit.unicode a b c d).Valid)
    : strtol a b c d < 0x10000 := by
  simp only [StringUnit.Valid, Bool.and_eq_true] at h
  have ha := hexValue_lt h.1.1.1
  have hb := hexValue_lt h.1.1.2
  have hc := hexValue_lt h.1.2
  have hd := hexValue_lt h.2
  unfold strtol
  omega

theorem simpleEscape_ascii {e c : UInt8} (h : simpleEscape e = some c)
    : e.toNat < 0x80 ∧ c.toNat < 0x80 := by
  unfold simpleEscape at h
  split at h
  . next he =>
    cases h
    rw [he]
    decide
  split at h
  . next he =>
    cases h
    rw [he]
    decide
  split at h
  . next he =>
    cases h
    rw [he]
    decide
  split at h
  . next he =>
    cases h
    rw [he]
    decide
  split at h
  . next he =>
    cases h
    rw [he]
    decide
  split at h
  . next hself =>
    cases h
    rcases hself with rfl | rfl | rfl
    . decide
    . decide
    . decide
  . contradiction

theorem utf16Encode_astral {lead trail : Nat} (h : (isLead lead && isTrail trail) = true)
    : astral lead trail < 0x110000
      ∧ utf16Encode (astral lead trail) = [UInt16.ofNat lead, UInt16.ofNat trail] := by
  simp only [isLead, isTrail, Bool.and_eq_true, decide_eq_true_eq] at h
  have hlow : trail - 0xdc00 < 2 ^ 10 := by omega
  have hastral : astral lead trail = (lead - 0xd800) * 1024 + (trail - 0xdc00) + 0x10000 := by
    rw [astral, ← Nat.shiftLeft_add_eq_or_of_lt hlow, Nat.shiftLeft_eq]
  have hlt : astral lead trail < 0x110000 := by omega
  have hhigh : (astral lead trail - 0x10000) / 2 ^ 10 + 0xd800 = lead := by omega
  have hrest : astral lead trail % 1024 + 0xdc00 = trail := by omega
  refine ⟨hlt, ?_⟩
  rw [utf16Encode, if_neg (by omega), if_pos hlt, and_ones10, Nat.shiftRight_eq_div_pow, hhigh,
    hrest]

/-! ## Code units -/

theorem run_char (c : Char) (pieces : List Piece)
    : jniStringFromUTF8 (joinPieces ((Part.char c).pieces ++ pieces))
        = (Part.char c).codeUnits ++ jniStringFromUTF8 (joinPieces pieces) := by
  have hpieces : (Part.char c).pieces = (String.utf8EncodeChar c).map .byte := by
    simp [Part.pieces, Part.units, StringUnit.piece, Function.comp_def]
  rw [hpieces, joinPieces_bytes, jniStringFromUTF8, run_word reads_utf8, utf16Encode_char]
  rfl

theorem run_simple {e : UInt8} (h : (Part.simple e).Valid) (pieces : List Piece)
    : jniStringFromUTF8 (joinPieces ((Part.simple e).pieces ++ pieces))
        = (Part.simple e).codeUnits ++ jniStringFromUTF8 (joinPieces pieces) := by
  have hvalid : (simpleEscape e).isSome = true := h (.simple e) (List.mem_singleton_self _)
  rcases Option.isSome_iff_exists.mp hvalid with ⟨c, hc⟩
  have hlt := (simpleEscape_ascii hc).2
  have hpt : c.toNat < 0x110000 := by omega
  have hpoint := run_point hpt (joinPieces pieces)
  rw [encodeUtf8, if_pos hlt, utf16Encode, if_pos (by omega), UInt8.ofNat_toNat] at hpoint
  simp only [Part.pieces, Part.units, Part.codeUnits, List.map_singleton, StringUnit.piece, hc,
    Option.getD_some, List.singleton_append, joinPieces]
  exact hpoint

theorem run_unicode {a b c d : UInt8} (h : (Part.unicode a b c d).Valid) {pieces : List Piece}
    (hpieces : joinPieces (.point (strtol a b c d) :: pieces)
      = encodeUtf8 (some (strtol a b c d)) ++ joinPieces pieces)
    : jniStringFromUTF8 (joinPieces ((Part.unicode a b c d).pieces ++ pieces))
        = (Part.unicode a b c d).codeUnits ++ jniStringFromUTF8 (joinPieces pieces) := by
  have hlt := strtol_lt (h (.unicode a b c d) (List.mem_singleton_self _))
  simp only [Part.pieces, Part.units, Part.codeUnits, List.map_singleton, StringUnit.piece,
    List.singleton_append]
  rw [hpieces, run_point (by omega), utf16Encode, if_pos hlt, List.singleton_append]

-- two adjacent surrogates are one character in UTF-8 and the same two code units in UTF-16
theorem run_pair {lead trail : Nat} (h : (isLead lead && isTrail trail) = true)
    (pieces : List Piece)
    : jniStringFromUTF8 (joinPieces (.point lead :: .point trail :: pieces))
        = UInt16.ofNat lead :: UInt16.ofNat trail :: jniStringFromUTF8 (joinPieces pieces) := by
  have hastral := utf16Encode_astral h
  rw [joinPieces, if_pos h, run_point hastral.1, hastral.2]
  rfl

theorem joinPieces_unpaired {lead trail : Nat} (h : (isLead lead && isTrail trail) ≠ true)
    (pieces : List Piece)
    : joinPieces (.point lead :: .point trail :: pieces)
        = encodeUtf8 (some lead) ++ joinPieces (.point trail :: pieces) := by
  rw [joinPieces, if_neg h]

theorem run_parts (parts : List Part) (h : ∀ part ∈ parts, part.Valid)
    : jniStringFromUTF8 (joinPieces (parts.flatMap Part.pieces)) = parts.flatMap Part.codeUnits := by
  induction parts using List.twoStepInduction with
  | nil => rfl
  | singleton part =>
    have hvalid := h part (List.mem_singleton_self _)
    rw [List.flatMap_singleton, List.flatMap_singleton, ← List.append_nil part.pieces,
      ← List.append_nil part.codeUnits]
    cases part with
    | char c => exact run_char c []
    | simple e => exact run_simple hvalid []
    | unicode a b c d => exact run_unicode hvalid (joinPieces_point (by simp))
  | cons_cons part next parts ih ihnext =>
    simp only [List.mem_cons, forall_eq_or_imp] at h
    rcases h with ⟨hvalid, hnext, hparts⟩
    have hlater := ihnext next (by simpa using ⟨hnext, hparts⟩)
    rw [List.flatMap_cons, List.flatMap_cons (f := Part.codeUnits)]
    cases part with
    | char c => rw [run_char, hlater]
    | simple e => rw [run_simple hvalid, hlater]
    | unicode a b c d =>
      cases next with
      | char c' =>
        have hbyte : ∀ trail later,
            (Part.char c' :: parts).flatMap Part.pieces ≠ .point trail :: later := by
          intro trail later
          rcases List.exists_cons_of_ne_nil (String.utf8EncodeChar_ne_nil (c := c')) with
            ⟨byte, bytes, heq⟩
          simp [Part.pieces, Part.units, heq, StringUnit.piece]
        rw [run_unicode hvalid (joinPieces_point hbyte), hlater]
      | simple e' =>
        have hbyte : ∀ trail later,
            (Part.simple e' :: parts).flatMap Part.pieces ≠ .point trail :: later := by
          simp [Part.pieces, Part.units, StringUnit.piece]
        rw [run_unicode hvalid (joinPieces_point hbyte), hlater]
      | unicode a' b' c' d' =>
        by_cases hpair : (isLead (strtol a b c d) && isTrail (strtol a' b' c' d')) = true
        . have hrest := run_pair hpair (parts.flatMap Part.pieces)
          rw [ih hparts] at hrest
          exact hrest
        . have hunpaired := joinPieces_unpaired hpair (parts.flatMap Part.pieces)
          rw [← hlater]
          exact run_unicode hvalid hunpaired

theorem decode_parts (parts : List Part)
    : decode (parts.flatMap Part.units) = joinPieces (parts.flatMap Part.pieces) := by
  rw [decode, List.map_flatMap]
  rfl

/-! ## A text that came from Java -/

theorem utf8Word_cons {v : Nat} {b : UInt8} {bytes : Str} (h : utf8Word v = b :: bytes)
    : (∀ x ∈ bytes, 0x80 ≤ x.toNat) ∧ (b.toNat < 0x80 → bytes = []) := by
  have hcontinuation : ∀ n, 0x80 ≤ (UInt8.ofNat (n % 0x40 + 0x80)).toNat := by
    intro n
    rw [toNat_ofNat (by omega)]
    omega
  unfold utf8Word at h
  split at h
  . rw [List.cons.injEq] at h
    rw [← h.2]
    exact ⟨by simp, fun _ => rfl⟩
  split at h
  . rw [List.cons.injEq] at h
    rw [← h.1, ← h.2, toNat_ofNat (by omega)]
    refine ⟨?_, by omega⟩
    simp only [List.mem_singleton, forall_eq]
    exact hcontinuation _
  split at h
  . rw [List.cons.injEq] at h
    rw [← h.1, ← h.2, toNat_ofNat (by omega)]
    refine ⟨?_, by omega⟩
    simp only [List.mem_cons, List.not_mem_nil, or_false, forall_eq_or_imp, forall_eq]
    exact ⟨hcontinuation _, hcontinuation _⟩
  . rw [List.cons.injEq] at h
    rw [← h.1, ← h.2, toNat_ofNat (by omega)]
    refine ⟨?_, by omega⟩
    simp only [List.mem_cons, List.not_mem_nil, or_false, forall_eq_or_imp, forall_eq]
    exact ⟨hcontinuation _, hcontinuation _, hcontinuation _⟩

-- an ASCII byte is never inside of the word of a character
theorem split_at_ascii {b : UInt8} (hb : b.toNat < 0x80) {t : Str} (chars : List Char)
    : ∀ before : Str, chars.flatMap String.utf8EncodeChar = before ++ b :: t →
        WellFormed String.utf8EncodeChar before ∧ WellFormed String.utf8EncodeChar t := by
  induction chars with
  | nil => simp
  | cons c chars ih =>
    intro before h
    rw [List.flatMap_cons, List.append_eq_append_iff] at h
    rcases h with ⟨rest, hbefore, hchars⟩ | ⟨rest, hword, hchars⟩
    . rcases ih rest hchars with ⟨⟨cs, hcs⟩, ht⟩
      refine ⟨⟨c :: cs, ?_⟩, ht⟩
      rw [hbefore, hcs, List.flatMap_cons]
    . cases rest with
      | nil =>
        rw [List.append_nil] at hword
        rcases ih [] hchars.symm with ⟨_, ht⟩
        refine ⟨⟨[c], ?_⟩, ht⟩
        rw [List.flatMap_singleton, hword]
      | cons x rest =>
        rw [List.cons_append, List.cons.injEq] at hchars
        rw [← hchars.1] at hword
        cases before with
        | nil =>
          have hrest := (utf8Word_cons hword).2 hb
          rw [hrest, List.nil_append] at hchars
          exact ⟨⟨[], rfl⟩, ⟨chars, hchars.2⟩⟩
        | cons y before =>
          have hx := (utf8Word_cons hword).1 b (by simp)
          omega

theorem plain_of_high {x : UInt8} {t : Str} {units : List StringUnit} (hx : 0x80 ≤ x.toNat)
    (h : unitsText units = x :: t) : ∃ rest, units = .plain x :: rest ∧ unitsText rest = t := by
  cases units with
  | nil => simp [unitsText] at h
  | cons unit rest =>
    cases unit with
    | plain c =>
      simp only [unitsText, List.flatMap_cons, StringUnit.text, List.singleton_append,
        List.cons.injEq] at h
      rw [h.1]
      exact ⟨rest, rfl, h.2⟩
    | _ =>
      simp only [unitsText, List.flatMap_cons, StringUnit.text, List.cons_append,
        List.cons.injEq] at h
      rw [← h.1] at hx
      contradiction

theorem plain_of_continuation {bytes t : Str} {units : List StringUnit}
    (hbytes : ∀ x ∈ bytes, 0x80 ≤ x.toNat) (h : unitsText units = bytes ++ t)
    : ∃ rest, units = bytes.map .plain ++ rest ∧ unitsText rest = t := by
  induction bytes generalizing units with
  | nil => exact ⟨units, rfl, h⟩
  | cons x bytes ih =>
    simp only [List.mem_cons, forall_eq_or_imp] at hbytes
    rcases plain_of_high hbytes.1 h with ⟨rest, rfl, hrest⟩
    rcases ih hbytes.2 hrest with ⟨later, rfl, hlater⟩
    exact ⟨later, rfl, hlater⟩

theorem wellFormed_of_ascii {b : UInt8} (hb : b.toNat < 0x80) {t : Str}
    (h : WellFormed String.utf8EncodeChar (b :: t)) : WellFormed String.utf8EncodeChar t := by
  rcases h with ⟨chars, hchars⟩
  exact (split_at_ascii hb chars [] hchars.symm).2

theorem hex_ascii {c : UInt8} (h : isHex c = true) : c.toNat < 0x80 := by
  simp only [isHex, Bytes.inRange, Bool.or_eq_true, Bool.and_eq_true, decide_eq_true_eq,
    UInt8.le_iff_toNat_le, UInt8.reduceToNat] at h
  omega

theorem escape_ascii {e : UInt8} (h : (StringUnit.simple e).Valid) : e.toNat < 0x80 := by
  rcases Option.isSome_iff_exists.mp h with ⟨c, hc⟩
  exact (simpleEscape_ascii hc).1

theorem parts_of_wellFormed (n : Nat) (units : List StringUnit) (hn : units.length ≤ n)
    (hvalid : ∀ unit ∈ units, unit.Valid)
    (h : WellFormed String.utf8EncodeChar (unitsText units))
    : ∃ parts : List Part, units = parts.flatMap Part.units := by
  induction n generalizing units with
  | zero => exact ⟨[], List.length_eq_zero_iff.mp (Nat.le_zero.mp hn)⟩
  | succ n ih =>
    cases units with
    | nil => exact ⟨[], rfl⟩
    | cons unit units =>
      simp only [List.mem_cons, forall_eq_or_imp] at hvalid
      rw [List.length_cons, Nat.add_le_add_iff_right] at hn
      have hascii : WellFormed String.utf8EncodeChar (unitsText units) → ∀ part : Part,
          part.units = [unit] → ∃ parts : List Part, unit :: units = parts.flatMap Part.units := by
        intro hunits part hpart
        rcases ih units hn hvalid.2 hunits with ⟨parts, hparts⟩
        refine ⟨part :: parts, ?_⟩
        rw [List.flatMap_cons, hpart, ← hparts, List.singleton_append]
      cases unit with
      | plain b =>
        rcases h with ⟨chars, hchars⟩
        cases chars with
        | nil => simp [unitsText, StringUnit.text] at hchars
        | cons c chars =>
          rcases List.exists_cons_of_ne_nil (String.utf8EncodeChar_ne_nil (c := c)) with
            ⟨b', bytes, hword⟩
          rw [List.flatMap_cons, hword] at hchars
          simp only [unitsText, List.flatMap_cons, StringUnit.text, List.cons_append,
            List.nil_append, List.cons.injEq] at hchars
          rcases plain_of_continuation (utf8Word_cons hword).1 hchars.2 with ⟨rest, rfl, hrest⟩
          rw [List.length_append] at hn
          rcases ih rest (by omega) (fun unit hunit => hvalid.2 unit (List.mem_append_right _ hunit))
            ⟨chars, hrest⟩ with ⟨parts, rfl⟩
          refine ⟨.char c :: parts, ?_⟩
          rw [List.flatMap_cons, Part.units, hword, hchars.1]
          rfl
      | simple e =>
        have he := escape_ascii hvalid.1
        exact hascii (wellFormed_of_ascii he (wellFormed_of_ascii (by decide) h)) (.simple e) rfl
      | unicode a b c d =>
        have hhex := hvalid.1
        simp only [StringUnit.Valid, Bool.and_eq_true] at hhex
        have hu := wellFormed_of_ascii (by decide) (wellFormed_of_ascii (by decide) h)
        have ha := wellFormed_of_ascii (hex_ascii hhex.1.1.1) hu
        have hb := wellFormed_of_ascii (hex_ascii hhex.1.1.2) ha
        have hc := wellFormed_of_ascii (hex_ascii hhex.1.2) hb
        have hd := wellFormed_of_ascii (hex_ascii hhex.2) hc
        exact hascii hd (.unicode a b c d) rfl

theorem parts_of_java {u : List UInt16} {before after : Str} {units : List StringUnit}
    (hvalid : ∀ unit ∈ units, unit.Valid)
    (htext : jniUTF8FromString u = before ++ quoted units ++ after)
    : ∃ parts : List Part, units = parts.flatMap Part.units := by
  rcases wellFormed_jniUTF8FromString u with ⟨chars, hchars⟩
  have hopen : chars.flatMap String.utf8EncodeChar
      = before ++ 0x22 :: (unitsText units ++ 0x22 :: after) := by
    rw [← hchars, htext, quoted]
    simp
  rcases (split_at_ascii (by decide) chars before hopen).2 with ⟨inner, hinner⟩
  have hunits := (split_at_ascii (by decide) inner _ hinner.symm).1
  exact parts_of_wellFormed units.length units (Nat.le_refl _) hvalid hunits

theorem string_reaches_java {u : List UInt16} {before after : Str} {units : List StringUnit}
    (hvalid : ∀ unit ∈ units, unit.Valid)
    (htext : jniUTF8FromString u = before ++ quoted units ++ after)
    : ∃ (parts : List Part) (str : Str), units = parts.flatMap Part.units
        ∧ (∀ (F : Json11.Double) levels,
          parseJson F (levels + 1) (quoted units ++ after) = .ok (.string str, after))
        ∧ jniStringFromUTF8 str = parts.flatMap Part.codeUnits := by
  rcases parts_of_java hvalid htext with ⟨parts, rfl⟩
  refine ⟨parts, decode (parts.flatMap Part.units), rfl, ?_, ?_⟩
  . exact fun F levels => parseJson_quote levels hvalid after
  . rw [decode_parts]
    apply run_parts
    intro part hpart unit hunit
    exact hvalid unit (List.mem_flatMap_of_mem hpart hunit)

-- one character as it is, one as a pair of escapes, and a surrogate without a partner
def javaUnits : List StringUnit :=
  [.plain 0xc3, .plain 0xa9, .unicode 0x64 0x38 0x33 0x64, .unicode 0x64 0x65 0x30 0x30,
    .unicode 0x64 0x38 0x33 0x64]

def javaString : List UInt16 :=
  ("\x7b\"hash\":\"é\\ud83d\\ude00\\ud83d\"\x7d".toList).flatMap utf16EncodeChar

theorem javaUnits_valid : ∀ unit ∈ javaUnits, unit.Valid := by
  simp only [javaUnits, List.mem_cons, List.not_mem_nil, or_false, forall_eq_or_imp, forall_eq,
    StringUnit.Valid]
  decide

theorem string_reaches_java_pair : ∃ (parts : List Part) (str : Str),
    javaUnits = parts.flatMap Part.units
      ∧ (∀ (F : Json11.Double) levels,
        parseJson F (levels + 1) (quoted javaUnits ++ lit "\x7d") = .ok (.string str, lit "\x7d"))
      ∧ jniStringFromUTF8 str = parts.flatMap Part.codeUnits :=
  string_reaches_java (u := javaString) javaUnits_valid
    (by decide +kernel : _ = lit "\x7b\"hash\":" ++ quoted javaUnits ++ lit "\x7d")

end Djinni
