import Mathlib.Data.List.TakeWhile
import LedgerApp.Json11.Lemmas.Extend
import LedgerApp.Json11.Lemmas.Value

/-!
The parser reads back what `dump` prints. Of the C functions on `double` only two facts are used,
which `Double.Lawful` states: an `int` converted to `double` equals itself, and the seventeen digits
of a finite `double` are a number that reads as an equal one.
-/

namespace Json11

open Bytes Outcome

structure Double.Lawful (F : Double) : Prop where
  eq_ofInt : ∀ n, F.eq (F.ofInt n) (F.ofInt n) = true
  parse_snprintf : ∀ d, F.isfinite d = true →
    ∃ v, parseNumber F (F.snprintf d) = .ok (v, []) ∧ Json.equals v (.double d) = true

/-! ## Strings -/

theorem hexDigits_control (n : Nat) (h : n ≤ 0x1f)
    : isHex (hexDigit (n / 16)) = true ∧ isHex (hexDigit (n % 16)) = true
        ∧ strtol 0x30 0x30 (hexDigit (n / 16)) (hexDigit (n % 16)) = n := by
  interval_cases n <;> decide

theorem joinSurrogates_of_not_trail (last : Option Nat) {codepoint : Nat} (out : Str)
    (h : codepoint < 0xdc00)
    : joinSurrogates last codepoint out = (some codepoint, out ++ encodeUtf8 last) := by
  unfold joinSurrogates
  split
  . rw [if_neg]
    omega
  . rfl

theorem parseString_unescaped {ch : UInt8} (out : Str) (last : Option Nat) (s : Str)
    (hquote : ch ≠ 0x22) (hcontrol : ¬ch ≤ 0x1f) (hslash : ch ≠ 0x5c)
    : parseString out last (ch :: s) = parseString (out ++ encodeUtf8 last ++ [ch]) none s := by
  rw [parseString.eq_def]
  dsimp only
  rw [if_neg hquote, if_neg hcontrol, if_pos hslash]

theorem parseString_escape {e c : UInt8} (out : Str) (last : Option Nat) (s : Str)
    (hu : e ≠ 0x75) (hc : simpleEscape e = some c)
    : parseString out last (0x5c :: e :: s)
        = parseString (out ++ encodeUtf8 last ++ [c]) none s := by
  rw [parseString.eq_def]
  dsimp only
  rw [if_neg (by decide), if_neg (by decide), if_neg (by decide)]
  split
  . next heq => simp at heq
  . next heq =>
    simp at heq
    exact absurd heq.1 hu
  . next heq =>
    simp only [List.cons.injEq] at heq
    rw [if_neg, ← heq.1, hc, ← heq.2]
    rw [← heq.1]
    exact hu

theorem parseString_lit {w : String} {e c : UInt8} (out : Str) (last : Option Nat) (s : Str)
    (hw : lit w = [0x5c, e]) (hu : e ≠ 0x75) (hc : simpleEscape e = some c)
    : parseString out last (lit w ++ s) = parseString (out ++ encodeUtf8 last ++ [c]) none s := by
  rw [hw]
  exact parseString_escape out last s hu hc

theorem parseString_unicode {a b c d : UInt8} (out : Str) (last : Option Nat) (s : Str)
    (hhex : (isHex a && isHex b && isHex c && isHex d) = true) (htrail : strtol a b c d < 0xdc00)
    : parseString out last (0x5c :: 0x75 :: a :: b :: c :: d :: s)
        = parseString (out ++ encodeUtf8 last) (some (strtol a b c d)) s := by
  rw [parseString.eq_def]
  dsimp only
  rw [if_neg (by decide), if_neg (by decide), if_neg (by decide)]
  simp only [hhex, joinSurrogates_of_not_trail _ _ htrail, if_true]

theorem encodeUtf8_control {ch : UInt8} (h : ch ≤ 0x1f) : encodeUtf8 (some ch.toNat) = [ch] := by
  have : ch.toNat ≤ 0x1f := UInt8.le_iff_toNat_le.mp h
  have hlt : ch.toNat < 0x80 := by omega
  simp [encodeUtf8, hlt]

theorem parseString_dumpChars (s out x : Str) (last : Option Nat)
    : parseString out last (dumpChars s ++ 0x22 :: x) = .ok (out ++ encodeUtf8 last ++ s, x) := by
  fun_induction dumpChars s generalizing out last with
  | case1 =>
    rw [List.nil_append, parseString.eq_def]
    simp
  | case2 s ih =>
    have hw : lit "\\\\" = [0x5c, 0x5c] := by decide
    rw [List.append_assoc, parseString_lit out last _ hw (by decide) rfl, ih]
    simp [encodeUtf8]
  | case3 s _ ih =>
    have hw : lit "\\\"" = [0x5c, 0x22] := by decide
    rw [List.append_assoc, parseString_lit out last _ hw (by decide) rfl, ih]
    simp [encodeUtf8]
  | case4 s _ _ ih =>
    have hw : lit "\\b" = [0x5c, 0x62] := by decide
    rw [List.append_assoc, parseString_lit out last _ hw (by decide) rfl, ih]
    simp [encodeUtf8]
  | case5 s _ _ _ ih =>
    have hw : lit "\\f" = [0x5c, 0x66] := by decide
    rw [List.append_assoc, parseString_lit out last _ hw (by decide) rfl, ih]
    simp [encodeUtf8]
  | case6 s _ _ _ _ ih =>
    have hw : lit "\\n" = [0x5c, 0x6e] := by decide
    rw [List.append_assoc, parseString_lit out last _ hw (by decide) rfl, ih]
    simp [encodeUtf8]
  | case7 s _ _ _ _ _ ih =>
    have hw : lit "\\r" = [0x5c, 0x72] := by decide
    rw [List.append_assoc, parseString_lit out last _ hw (by decide) rfl, ih]
    simp [encodeUtf8]
  | case8 s _ _ _ _ _ _ ih =>
    have hw : lit "\\t" = [0x5c, 0x74] := by decide
    rw [List.append_assoc, parseString_lit out last _ hw (by decide) rfl, ih]
    simp [encodeUtf8]
  | case9 ch s _ _ _ _ _ _ _ h ih =>
    have hle : ch.toNat ≤ 0x1f := UInt8.le_iff_toNat_le.mp h
    have hhex := hexDigits_control ch.toNat hle
    have hw : lit "\\u00" = [0x5c, 0x75, 0x30, 0x30] := by decide
    rw [hw]
    simp only [List.cons_append, List.nil_append]
    rw [parseString_unicode, ih, hhex.2.2, encodeUtf8_control h]
    . simp
    . rw [hhex.1, hhex.2.1]
      rfl
    . rw [hhex.2.2]
      omega
  | case10 s _ _ _ _ _ _ _ _ ih =>
    have hw : lit "\\u2028" = [0x5c, 0x75, 0x32, 0x30, 0x32, 0x38] := by decide
    have hc : encodeUtf8 (some (strtol 0x32 0x30 0x32 0x38)) = [0xe2, 0x80, 0xa8] := by decide
    rw [hw]
    simp only [List.cons_append, List.nil_append]
    rw [parseString_unicode out last _ (by decide) (by decide), ih, hc]
    simp
  | case11 s _ _ _ _ _ _ _ _ ih =>
    have hw : lit "\\u2029" = [0x5c, 0x75, 0x32, 0x30, 0x32, 0x39] := by decide
    have hc : encodeUtf8 (some (strtol 0x32 0x30 0x32 0x39)) = [0xe2, 0x80, 0xa9] := by decide
    rw [hw]
    simp only [List.cons_append, List.nil_append]
    rw [parseString_unicode out last _ (by decide) (by decide), ih, hc]
    simp
  | case12 ch s _ _ hslash hquote _ _ _ _ _ hcontrol ih =>
    rw [List.cons_append, parseString_unescaped out last _ hquote hcontrol hslash, ih]
    simp [encodeUtf8]

/-! ## Numbers -/

theorem head_decimalNat {n : Nat} (h : n ≠ 0) : inRange (peek (decimalNat n)) 0x31 0x39 = true := by
  unfold decimalNat
  rw [if_neg h]
  have hne : Nat.digits 10 n ≠ [] := Nat.digits_ne_nil_iff_ne_zero.mpr h
  have hlast := Nat.getLast_digit_ne_zero 10 h
  have hlt := Nat.digits_lt_base (by omega : 1 < 10) (List.getLast_mem hne)
  have hpeek : peek ((Nat.digits 10 n).map digit).reverse
      = digit ((Nat.digits 10 n).getLast hne) := by
    simp [peek, List.head?_reverse, List.getLast?_eq_some_getLast hne]
  rw [hpeek]
  generalize (Nat.digits 10 n).getLast hne = d at hlast hlt
  interval_cases d
  . contradiction
  all_goals decide

theorem integerPart_decimalNat (n : Nat) {x : Str} (hx : Delimited x)
    : integerPart (decimalNat n ++ x) = .ok (decimalNat n, x) := by
  by_cases hzero : n = 0
  . have : integerPart (decimalNat n) = .ok (decimalNat n, []) := by
      rw [hzero]
      rfl
    exact integerPart_append_right hx this
  . have hhead := head_decimalNat hzero
    have hall : ∀ c ∈ decimalNat n, isDigit c = true := fun c hc => isDigit_of_mem_decimalNat hc
    have : integerPart (decimalNat n) = .ok (decimalNat n, []) := by
      unfold integerPart
      rw [if_neg, if_pos hhead, List.takeWhile_eq_self_iff.mpr hall]
      . rw [List.dropWhile_eq_nil_iff.mpr hall]
        rfl
      . intro heq
        rw [heq] at hhead
        simp [inRange] at hhead
    exact integerPart_append_right hx this

theorem minusPart_decimal (n : Int) (x : Str) : minusPart (decimal n ++ x)
    = (if n < 0 then [0x2d] else [], decimalNat n.natAbs ++ x) := by
  unfold decimal
  split
  . rfl
  . unfold minusPart
    rw [if_neg]
    intro heq
    rw [peek_append_of_ne_nil (decimalNat_ne_nil _)] at heq
    by_cases hzero : n.natAbs = 0
    . rw [hzero] at heq
      simp [decimalNat] at heq
    . have hhead := head_decimalNat hzero
      rw [heq] at hhead
      simp [inRange] at hhead

theorem decimal_eq_append (n : Int)
    : (if n < 0 then [0x2d] else []) ++ decimalNat n.natAbs = decimal n := by
  unfold decimal
  split
  . rfl
  . rfl

theorem parseNumber_decimal (F : Double) {n : Int} (h : (decimal n).length ≤ 9) {x : Str}
    (hx : Delimited x) : parseNumber F (decimal n ++ x) = .ok (.int n, x) := by
  unfold parseNumber
  rw [minusPart_decimal]
  dsimp only
  rw [integerPart_decimalNat _ hx, ok_bind]
  dsimp only
  rw [decimal_eq_append, if_pos ⟨hx.2.1, hx.2.2.1, hx.2.2.2, h⟩, atoi_decimal]
  rfl

theorem peek_of_parseNumber {F : Double} {s r : Str} {v : Json F}
    (h : parseNumber F s = .ok (v, r)) : peek s = 0x2d ∨ isDigit (peek s) = true := by
  by_cases hminus : peek s = 0x2d
  . exact .inl hminus
  . right
    unfold parseNumber at h
    have : minusPart s = ([], s) := by
      unfold minusPart
      rw [if_neg hminus]
    rw [this] at h
    simp only [bind_eq_ok] at h
    rcases h with ⟨⟨digits, u⟩, hint, h⟩
    unfold integerPart at hint
    split at hint
    . next hzero =>
      rw [hzero]
      rfl
    . split at hint
      . next hrange =>
        simp only [inRange, isDigit] at hrange ⊢
        grind
      . simp at hint

end Json11
