import LedgerApp.Outcome
import LedgerApp.Json11.Parse

/-!
The scanners of the parser split the input: what they return is a prefix of it and the rest.
-/

namespace Json11

open Bytes Outcome

theorem consumeWhitespace_length_le (s : Str) : (consumeWhitespace s).length ≤ s.length := by
  unfold consumeWhitespace
  apply List.Sublist.length_le
  apply List.dropWhile_sublist

theorem getNextToken_eq_ok {s r : Str} {c : UInt8}
    : getNextToken s = .ok (c, r) ↔ consumeWhitespace s = c :: r := by
  unfold getNextToken
  cases consumeWhitespace s with
  | nil => simp
  | cons a t => simp

theorem minusPart_append (s : Str) : (minusPart s).1 ++ (minusPart s).2 = s := by
  cases s with
  | nil => rfl
  | cons c s =>
    unfold minusPart
    split
    . next h =>
      simp only [peek_cons] at h
      simp [h]
    . simp

theorem signPart_append (s : Str) : (signPart s).1 ++ (signPart s).2 = s := by
  cases s with
  | nil => rfl
  | cons c s =>
    unfold signPart
    split
    . simp
    . simp

theorem integerPart_append {s t r : Str} (h : integerPart s = .ok (t, r)) : t ++ r = s := by
  cases s with
  | nil => simp [integerPart, inRange] at h
  | cons c s =>
    unfold integerPart at h
    split at h
    . next hzero =>
      split at h
      . simp at h
      . simp at h hzero
        simp [← h.1, ← h.2, hzero]
    . split at h
      . simp at h
        simp [← h.1, ← h.2]
      . simp at h

theorem integerPart_ne_nil {s t r : Str} (h : integerPart s = .ok (t, r)) : t ≠ [] := by
  cases s with
  | nil => simp [integerPart, inRange] at h
  | cons c s =>
    unfold integerPart at h
    split at h
    . split at h
      . simp at h
      . simp at h
        simp [← h.1]
    . split at h
      . next hrange =>
        have : isDigit c = true := by
          simp only [peek_cons, inRange, isDigit] at hrange ⊢
          grind
        simp [this] at h
        simp [← h.1]
      . simp at h

theorem decimalPart_append {s t r : Str} (h : decimalPart s = .ok (t, r)) : t ++ r = s := by
  unfold decimalPart at h
  split at h
  . next hdot =>
    split at h
    . cases s with
      | nil => simp at hdot
      | cons c s =>
        simp at h hdot
        simp [← h.1, ← h.2, hdot]
    . simp at h
  . simp at h
    simp [← h.1, ← h.2]

theorem exponentPart_append {s t r : Str} (h : exponentPart s = .ok (t, r)) : t ++ r = s := by
  unfold exponentPart at h
  split at h
  . next he =>
    cases s with
    | nil => simp at he
    | cons c s =>
      have hsign := signPart_append s
      simp only [List.tail_cons, peek_cons] at h
      by_cases hdigit : isDigit (peek (signPart s).2) = true
      . simp [hdigit] at h
        rw [← h.1, ← h.2]
        simp [hsign]
      . simp [hdigit] at h
  . simp at h
    simp [← h.1, ← h.2]

theorem parseNumber_append {F : Double} {s r : Str} {v : Json F} (h : parseNumber F s = .ok (v, r))
    : ∃ t, t ≠ [] ∧ t ++ r = s := by
  unfold parseNumber at h
  have hminus := minusPart_append s
  generalize minusPart s = p at hminus h
  rcases p with ⟨minus, u⟩
  simp only [bind_eq_ok] at h
  rcases h with ⟨⟨digits, u₁⟩, hint, h⟩
  have hdigits := integerPart_append hint
  have hne := integerPart_ne_nil hint
  dsimp only at h hminus
  split at h
  . simp at h
    refine ⟨minus ++ digits, by simp [hne], ?_⟩
    rw [← hminus, ← hdigits, ← h.2]
    simp
  . simp only [bind_eq_ok] at h
    rcases h with ⟨⟨decimals, u₂⟩, hdec, ⟨exponent, u₃⟩, hexp, h⟩
    have hdecimals := decimalPart_append hdec
    have hexponent := exponentPart_append hexp
    dsimp only at hexponent
    simp at h
    refine ⟨minus ++ digits ++ decimals ++ exponent, by simp [hne], ?_⟩
    rw [← hminus, ← hdigits, ← hdecimals, ← hexponent, ← h.2]
    simp

theorem parseNumber_length_lt {F : Double} {s r : Str} {v : Json F}
    (h : parseNumber F s = .ok (v, r)) : r.length < s.length := by
  rcases parseNumber_append h with ⟨t, hne, rfl⟩
  have := List.length_pos_iff.mpr hne
  simp
  omega

end Json11
