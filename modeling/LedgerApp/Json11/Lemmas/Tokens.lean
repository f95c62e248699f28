import LedgerApp.Json11.Grammar
import LedgerApp.Json11.Lemmas.Parsed

/-!
The scanners for strings and numbers read what the grammar says, and all of it.
-/

namespace Json11

open Bytes Outcome

variable {F : Double}

/-! ## Strings -/

-- `last` is an escaped code unit that is not written yet
def joinAfter (last : Option Nat) (pieces : List Piece) : Str :=
  match last with
  | some codepoint => joinPieces (.point codepoint :: pieces)
  | none => joinPieces pieces

theorem joinAfter_nil (last : Option Nat) : joinAfter last [] = encodeUtf8 last := by
  cases last with
  | none => rfl
  | some codepoint => simp [joinAfter, joinPieces]

theorem joinAfter_byte (last : Option Nat) (c : UInt8) (pieces : List Piece)
    : joinAfter last (.byte c :: pieces) = encodeUtf8 last ++ c :: joinAfter none pieces := by
  cases last with
  | none => rfl
  | some codepoint => simp [joinAfter, joinPieces]

theorem joinSurrogates_eq (last : Option Nat) (codepoint : Nat) (out : Str) (pieces : List Piece)
    : (joinSurrogates last codepoint out).2 ++ joinAfter (joinSurrogates last codepoint out).1 pieces
        = out ++ joinAfter last (.point codepoint :: pieces) := by
  unfold joinSurrogates
  cases last with
  | none => simp [joinAfter, encodeUtf8]
  | some lead =>
    dsimp only
    by_cases h : 0xd800 ≤ lead ∧ lead ≤ 0xdbff ∧ 0xdc00 ≤ codepoint ∧ codepoint ≤ 0xdfff
    . rw [if_pos h]
      simp [joinAfter, joinPieces, isLead, isTrail, astral, h]
    . rw [if_neg h]
      have hpair : (isLead lead && isTrail codepoint) = false := by
        rw [Bool.eq_false_iff]
        simp only [isLead, isTrail, ne_eq, Bool.and_eq_true, decide_eq_true_eq]
        omega
      simp [joinAfter, joinPieces, hpair]

theorem unitsText_cons (unit : StringUnit) (units : List StringUnit)
    : unitsText (unit :: units) = unit.text ++ unitsText units := rfl

theorem units_of_parseString {out value r s : Str} {last : Option Nat}
    (h : parseString out last s = .ok (value, r))
    : ∃ units : List StringUnit, (∀ unit ∈ units, unit.Valid) ∧ s = unitsText units ++ 0x22 :: r
        ∧ value = out ++ joinAfter last (units.map StringUnit.piece) := by
  fun_induction parseString out last s with
  | case1 => contradiction
  | case2 out last s =>
    simp only [pure_eq_ok, Except.ok.injEq, Prod.mk.injEq] at h
    refine ⟨[], by simp, ?_, ?_⟩
    . rw [← h.2]
      rfl
    . rw [← h.1, List.map_nil, joinAfter_nil]
  | case3 => contradiction
  | case4 out last ch s hquote hcontrol hslash ih =>
    rcases ih h with ⟨units, hvalid, hs, hvalue⟩
    refine ⟨.plain ch :: units, ?_, ?_, ?_⟩
    . rw [List.forall_mem_cons]
      exact ⟨⟨hcontrol, hquote, hslash⟩, hvalid⟩
    . rw [hs]
      rfl
    . rw [hvalue, List.map_cons, StringUnit.piece, joinAfter_byte]
      simp
  | case5 => contradiction
  | case6 out last ch hquote hcontrol hslash a b c d s' hhex last' out' hjoin ih =>
    rcases ih h with ⟨units, hvalid, hs, hvalue⟩
    refine ⟨.unicode a b c d :: units, ?_, ?_, ?_⟩
    . rw [List.forall_mem_cons]
      exact ⟨hhex, hvalid⟩
    . rw [hs, not_not.mp hslash]
      rfl
    . have heq := joinSurrogates_eq last (strtol a b c d) out (units.map StringUnit.piece)
      rw [hjoin] at heq
      rw [hvalue, heq]
      rfl
  | case7 => contradiction
  | case8 => contradiction
  | case9 out last ch hquote hcontrol hslash e s' hnot hu c hc ih =>
    rcases ih h with ⟨units, hvalid, hs, hvalue⟩
    refine ⟨.simple e :: units, ?_, ?_, ?_⟩
    . rw [List.forall_mem_cons]
      exact ⟨by simp [StringUnit.Valid, hc], hvalid⟩
    . rw [hs, not_not.mp hslash]
      rfl
    . rw [hvalue, List.map_cons, StringUnit.piece, hc, Option.getD_some, joinAfter_byte]
      simp
  | case10 => contradiction

theorem parseString_units {units : List StringUnit} (h : ∀ unit ∈ units, unit.Valid) (out x : Str)
    (last : Option Nat)
    : parseString out last (unitsText units ++ 0x22 :: x)
        = .ok (out ++ joinAfter last (units.map StringUnit.piece), x) := by
  induction units generalizing out last with
  | nil =>
    rw [List.map_nil, joinAfter_nil, unitsText, List.flatMap_nil, List.nil_append,
      parseString.eq_def]
    simp
  | cons unit units ih =>
    rw [List.forall_mem_cons] at h
    rw [unitsText_cons, List.append_assoc, List.map_cons]
    cases unit with
    | plain c =>
      rcases h.1 with ⟨hcontrol, hquote, hslash⟩
      rw [StringUnit.text, List.singleton_append, parseString_unescaped _ _ _ hquote hcontrol hslash,
        ih h.2, StringUnit.piece, joinAfter_byte]
      simp
    | simple e =>
      rcases Option.isSome_iff_exists.mp h.1 with ⟨c, hc⟩
      have hu : e ≠ 0x75 := by
        rintro rfl
        have hnone : simpleEscape 0x75 = none := by decide
        rw [hnone] at hc
        contradiction
      rw [StringUnit.text, List.cons_append, List.singleton_append,
        parseString_escape _ _ _ hu hc, ih h.2, StringUnit.piece, hc, joinAfter_byte]
      simp
    | unicode a b c d =>
      have hhex : (isHex a && isHex b && isHex c && isHex d) = true := h.1
      simp only [StringUnit.text, List.cons_append, List.nil_append]
      rw [parseString.eq_def]
      dsimp only
      rw [if_neg (by decide), if_neg (by decide), if_neg (by decide)]
      simp only [hhex, if_true]
      have heq := joinSurrogates_eq last (strtol a b c d) out (units.map StringUnit.piece)
      rw [ih h.2, heq]
      rfl

/-! ## Numbers -/

theorem isInteger_of_integerPart {s t r : Str} (h : integerPart s = .ok (t, r)) : IsInteger t := by
  refine ⟨integerPart_ne_nil h, integerPart_digits h, ?_⟩
  unfold integerPart at h
  split at h
  . split at h
    . contradiction
    . simp only [pure_eq_ok, Except.ok.injEq, Prod.mk.injEq] at h
      exact fun _ => h.1.symm
  . next hzero =>
    split at h
    . simp only [pure_eq_ok, Except.ok.injEq, Prod.mk.injEq] at h
      intro ht
      cases s with
      | nil => simp [inRange] at *
      | cons c s =>
        rw [← h.1, List.takeWhile_cons] at ht
        split at ht
        . exact absurd ht hzero
        . simp at ht
    . contradiction

theorem integerPart_text {t x : Str} (ht : IsInteger t) (hx : isDigit (peek x) = false)
    : integerPart (t ++ x) = .ok (t, x) := by
  rcases ht with ⟨hne, hdigits, hleading⟩
  cases t with
  | nil => contradiction
  | cons c t =>
    by_cases hzero : c = 0x30
    . have ht : t = [] := by simpa [hzero] using hleading hzero
      rw [hzero, ht]
      simp [integerPart, hx]
    . have hc : inRange c 0x31 0x39 = true := by
        have := hdigits c (by simp)
        simp only [isDigit, inRange] at this ⊢
        grind
      have htake : (c :: t ++ x).takeWhile isDigit = c :: t := by
        rw [takeWhile_append_peek hx, List.takeWhile_eq_self_iff]
        exact hdigits
      have hdrop : (c :: t ++ x).dropWhile isDigit = x := by
        rw [dropWhile_append_peek hx, List.dropWhile_eq_nil_iff.mpr hdigits, List.nil_append]
      unfold integerPart
      rw [htake, hdrop]
      simp [hzero, hc]

theorem takeWhile_digits (s : Str) : AllDigits (s.takeWhile isDigit) := by
  intro c hc
  exact List.mem_takeWhile_imp hc

theorem takeWhile_ne_nil {s : Str} (h : isDigit (peek s) = true) : s.takeWhile isDigit ≠ [] := by
  cases s with
  | nil => contradiction
  | cons c s => simpa [List.takeWhile_cons] using h

theorem digits_append {t x : Str} (hne : t ≠ []) (ht : AllDigits t) (hx : isDigit (peek x) = false)
    : isDigit (peek (t ++ x)) = true ∧ (t ++ x).takeWhile isDigit = t
        ∧ (t ++ x).dropWhile isDigit = x := by
  refine ⟨?_, ?_, ?_⟩
  . rw [peek_append_of_ne_nil hne]
    cases t with
    | nil => contradiction
    | cons c t => exact ht c (by simp)
  . rw [takeWhile_append_peek hx, List.takeWhile_eq_self_iff]
    exact ht
  . rw [dropWhile_append_peek hx, List.dropWhile_eq_nil_iff.mpr ht, List.nil_append]

theorem fraction_of_decimalPart {s t r : Str} (h : decimalPart s = .ok (t, r))
    : ∃ fraction, IsFraction fraction ∧ t = fractionText fraction
        ∧ (fraction = none → peek s ≠ 0x2e) := by
  unfold decimalPart at h
  split at h
  . split at h
    . next hdigit =>
      simp only [pure_eq_ok, Except.ok.injEq, Prod.mk.injEq] at h
      refine ⟨some (s.tail.takeWhile isDigit), ?_, h.1.symm, by simp⟩
      intro digits hmem
      rw [Option.mem_some.mp hmem.symm]
      exact ⟨takeWhile_ne_nil hdigit, takeWhile_digits _⟩
    . contradiction
  . next hdot =>
    simp only [pure_eq_ok, Except.ok.injEq, Prod.mk.injEq] at h
    exact ⟨none, by simp [IsFraction], h.1.symm, fun _ => hdot⟩

theorem decimalPart_text {fraction : Option Str} {x : Str} (h : IsFraction fraction)
    (hx : isDigit (peek x) = false) (hdot : peek x ≠ 0x2e)
    : decimalPart (fractionText fraction ++ x) = .ok (fractionText fraction, x) := by
  cases fraction with
  | none => exact decimalPart_of_peek_ne hdot
  | some digits =>
    rcases h digits rfl with ⟨hne, hdigits⟩
    rcases digits_append hne hdigits hx with ⟨hpeek, htake, hdrop⟩
    simp [decimalPart, fractionText, hpeek, htake, hdrop]

theorem signPart_eq (s : Str) : ∃ sign : Option UInt8,
    (∀ c ∈ sign, c = 0x2b ∨ c = 0x2d) ∧ (signPart s).1 = sign.toList := by
  unfold signPart
  split
  . next h =>
    refine ⟨some (peek s), ?_, rfl⟩
    intro c hc
    rw [← Option.mem_some.mp hc]
    exact h
  . exact ⟨none, by simp, rfl⟩

theorem exponent_of_exponentPart {s t r : Str} (h : exponentPart s = .ok (t, r))
    : ∃ exponent : Option Exponent, (∀ e ∈ exponent, e.Valid) ∧ t = exponentText exponent
        ∧ (exponent = none → peek s ≠ 0x65 ∧ peek s ≠ 0x45) := by
  unfold exponentPart at h
  split at h
  . next he =>
    rcases signPart_eq s.tail with ⟨sign, hsign, heq⟩
    dsimp only at h
    rw [heq] at h
    split at h
    . next hdigit =>
      simp only [pure_eq_ok, Except.ok.injEq, Prod.mk.injEq] at h
      refine ⟨some ⟨peek s, sign, (signPart s.tail).2.takeWhile isDigit⟩, ?_, h.1.symm, by simp⟩
      intro exponent hmem
      rw [← Option.mem_some.mp hmem]
      exact ⟨he, hsign, takeWhile_ne_nil hdigit, takeWhile_digits _⟩
    . contradiction
  . next he =>
    simp only [pure_eq_ok, Except.ok.injEq, Prod.mk.injEq] at h
    rw [not_or] at he
    exact ⟨none, by simp, h.1.symm, fun _ => he⟩

theorem signPart_text {sign : Option UInt8} {t : Str} (hsign : ∀ c ∈ sign, c = 0x2b ∨ c = 0x2d)
    (ht : isDigit (peek t) = true) : signPart (sign.toList ++ t) = (sign.toList, t) := by
  cases sign with
  | some c => simp [signPart, hsign c rfl]
  | none =>
    have hne : ¬(peek t = 0x2b ∨ peek t = 0x2d) := by
      rintro (h | h)
      . rw [h] at ht
        contradiction
      . rw [h] at ht
        contradiction
    simp [signPart, hne]

theorem exponentPart_text {exponent : Option Exponent} {x : Str} (h : ∀ e ∈ exponent, e.Valid)
    (hx : Delimited x)
    : exponentPart (exponentText exponent ++ x) = .ok (exponentText exponent, x) := by
  cases exponent with
  | none => exact exponentPart_of_peek_ne hx.2.2.1 hx.2.2.2
  | some exponent =>
    have hvalid := h exponent rfl
    rcases digits_append hvalid.ne_nil hvalid.digits hx.1 with ⟨hpeek, htake, hdrop⟩
    unfold exponentPart
    simp only [exponentText, Exponent.text, List.cons_append, List.append_assoc, peek_cons,
      List.tail_cons, signPart_text hvalid.sign hpeek, hpeek, htake, hdrop, hvalid.e, if_true]
    simp

theorem Number.value_int (number : Number) (hfraction : number.fraction = none)
    (hexponent : number.exponent = none) (hlen : number.integerText.length ≤ 9)
    : number.value F = .int (atoi number.integerText) := by
  rw [Number.value, hfraction, hexponent]
  exact if_pos ⟨rfl, rfl, hlen⟩

theorem Number.value_double {number : Number}
    (h : ¬(number.fraction = none ∧ number.exponent = none ∧ number.integerText.length ≤ 9))
    : number.value F = .double (F.strtod number.text) := by
  rw [Number.value, if_neg]
  rw [Option.isNone_iff_eq_none, Option.isNone_iff_eq_none]
  exact h

theorem minusPart_bool (s : Str)
    : ∃ minus : Bool, (minusPart s).1 = if minus then [0x2d] else [] := by
  rcases minusPart_eq s with h | h
  . exact ⟨false, h⟩
  . exact ⟨true, h⟩

theorem number_of_parseNumber {s r : Str} {v : Json F} (h : parseNumber F s = .ok (v, r))
    : ∃ number : Number, number.Valid ∧ s = number.text ++ r ∧ v = number.value F := by
  unfold parseNumber at h
  have happend := minusPart_append s
  rcases minusPart_bool s with ⟨minus, hminus⟩
  generalize minusPart s = p at happend hminus h
  rcases p with ⟨sign, u⟩
  simp only [bind_eq_ok] at h
  rcases h with ⟨⟨digits, u₁⟩, hint, h⟩
  have hdigits := integerPart_append hint
  dsimp only at h happend hminus
  split at h
  . next hshort =>
    simp only [pure_eq_ok, Except.ok.injEq, Prod.mk.injEq] at h
    rw [hminus] at h happend hshort
    refine ⟨⟨minus, digits, none, none⟩, ⟨isInteger_of_integerPart hint, by simp [IsFraction],
      by simp⟩, ?_, ?_⟩
    . rw [← happend, ← hdigits, ← h.2]
      simp [Number.text, Number.integerText, fractionText, exponentText]
    . rw [← h.1, Number.value_int ⟨minus, digits, none, none⟩ rfl rfl hshort.2.2.2]
      rfl
  . next hlong =>
    simp only [bind_eq_ok] at h
    rcases h with ⟨⟨decimals, u₂⟩, hdec, ⟨powers, u₃⟩, hexp, h⟩
    have hdecimals := decimalPart_append hdec
    have hpowers := exponentPart_append hexp
    rcases fraction_of_decimalPart hdec with ⟨fraction, hfraction, rfl, hdot⟩
    rcases exponent_of_exponentPart hexp with ⟨exponent, hexponent, rfl, he⟩
    simp only [pure_eq_ok, Except.ok.injEq, Prod.mk.injEq] at h
    dsimp only at hpowers he
    rw [hminus] at h happend hlong
    refine ⟨⟨minus, digits, fraction, exponent⟩, ⟨isInteger_of_integerPart hint, hfraction,
      hexponent⟩, ?_, ?_⟩
    . rw [← happend, ← hdigits, ← hdecimals, ← hpowers, ← h.2]
      simp [Number.text, Number.integerText]
    . rw [← h.1, Number.value_double]
      . rfl
      . rintro ⟨hfrac, hexpo, hlen⟩
        dsimp only at hfrac hexpo
        apply hlong
        rw [hfrac] at hdecimals
        have hsame : u₂ = u₁ := hdecimals
        rw [hsame] at he
        exact ⟨hdot hfrac, (he hexpo).1, (he hexpo).2, hlen⟩

theorem minusPart_text {t : Str} (minus : Bool) (ht : isDigit (peek t) = true)
    : minusPart ((if minus then [0x2d] else []) ++ t) = (if minus then [0x2d] else [], t) := by
  cases minus with
  | true => rfl
  | false =>
    have hne : peek t ≠ 0x2d := by
      intro h
      rw [h] at ht
      contradiction
    simp [minusPart, hne]

theorem peek_exponentText {exponent : Option Exponent} {x : Str} (h : ∀ e ∈ exponent, e.Valid)
    (hx : Delimited x) : isDigit (peek (exponentText exponent ++ x)) = false
      ∧ peek (exponentText exponent ++ x) ≠ 0x2e := by
  cases exponent with
  | none => exact ⟨hx.1, hx.2.1⟩
  | some exponent =>
    rcases (h exponent rfl).e with he | he
    . simp [exponentText, Exponent.text, he, isDigit, inRange]
    . simp [exponentText, Exponent.text, he, isDigit, inRange]

theorem peek_fractionText {fraction : Option Str} {x : Str} (hx : isDigit (peek x) = false)
    : isDigit (peek (fractionText fraction ++ x)) = false := by
  cases fraction with
  | none => exact hx
  | some digits => rfl

theorem parseNumber_text {number : Number} (h : number.Valid) {x : Str} (hx : Delimited x)
    : parseNumber F (number.text ++ x) = .ok (number.value F, x) := by
  rcases number with ⟨minus, digits, fraction, exponent⟩
  rcases h with ⟨hinteger, hfraction, hexponent⟩
  dsimp only at hinteger hfraction hexponent
  have hafter := peek_exponentText hexponent hx
  have hrest : isDigit (peek (fractionText fraction ++ (exponentText exponent ++ x))) = false :=
    peek_fractionText hafter.1
  have hfirst := (digits_append hinteger.ne_nil hinteger.digits hrest).1
  have htext : Number.text ⟨minus, digits, fraction, exponent⟩ ++ x
      = (if minus then [0x2d] else []) ++
        (digits ++ (fractionText fraction ++ (exponentText exponent ++ x))) := by
    simp [Number.text, Number.integerText]
  unfold parseNumber
  rw [htext, minusPart_text minus hfirst]
  dsimp only
  rw [integerPart_text hinteger hrest, ok_bind]
  dsimp only
  by_cases hshort : fraction = none ∧ exponent = none
      ∧ ((if minus then [0x2d] else []) ++ digits).length ≤ 9
  . rcases hshort with ⟨rfl, rfl, hlen⟩
    rw [Number.value_int ⟨minus, digits, none, none⟩ rfl rfl hlen]
    exact if_pos ⟨hx.2.1, hx.2.2.1, hx.2.2.2, hlen⟩
  . rw [Number.value_double hshort]
    rw [if_neg, decimalPart_text hfraction hafter.1 hafter.2, ok_bind]
    . dsimp only
      rw [exponentPart_text hexponent hx, ok_bind]
      rfl
    . rintro ⟨hdot, he, he', hlen⟩
      apply hshort
      cases fraction with
      | some digits => exact absurd rfl hdot
      | none =>
        cases exponent with
        | some exponent => exact absurd (hexponent exponent rfl).e (not_or.mpr ⟨he, he'⟩)
        | none => exact ⟨rfl, rfl, hlen⟩

end Json11
