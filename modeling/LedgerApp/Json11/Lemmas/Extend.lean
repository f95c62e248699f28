import LedgerApp.Json11.Lemmas.Scan

/-!
A number is read in the same way at the end of the input and in front of any text that cannot
continue it, so what follows a number never changes it.
-/

namespace Json11

open Bytes Outcome

def Delimited (x : Str) : Prop :=
  isDigit (peek x) = false ∧ peek x ≠ 0x2e ∧ peek x ≠ 0x65 ∧ peek x ≠ 0x45

theorem peek_ne_of_delimited {s x : Str} (hx : Delimited x) (c : UInt8)
    (hc : c = 0x2e ∨ c = 0x65 ∨ c = 0x45) (h : peek s ≠ c) : peek (s ++ x) ≠ c := by
  cases s with
  | nil =>
    rcases hc with hc | hc | hc
    . rw [hc]
      exact hx.2.1
    . rw [hc]
      exact hx.2.2.1
    . rw [hc]
      exact hx.2.2.2
  | cons a s => simpa using h

theorem isDigit_peek_append {s x : Str} (hx : Delimited x)
    : isDigit (peek (s ++ x)) = isDigit (peek s) := by
  cases s with
  | nil =>
    rw [List.nil_append, hx.1]
    rfl
  | cons a s => rfl

theorem minusPart_append_right {s : Str} (h : s ≠ []) (x : Str)
    : minusPart (s ++ x) = ((minusPart s).1, (minusPart s).2 ++ x) := by
  cases s with
  | nil => contradiction
  | cons c s =>
    by_cases hminus : c = 0x2d
    . simp [minusPart, hminus]
    . simp [minusPart, hminus]

theorem signPart_append_right {s : Str} (h : s ≠ []) (x : Str)
    : signPart (s ++ x) = ((signPart s).1, (signPart s).2 ++ x) := by
  cases s with
  | nil => contradiction
  | cons c s =>
    by_cases hsign : c = 0x2b ∨ c = 0x2d
    . simp [signPart, hsign]
    . simp [signPart, hsign]

theorem integerPart_append_right {s t r x : Str} (hx : Delimited x)
    (h : integerPart s = .ok (t, r)) : integerPart (s ++ x) = .ok (t, r ++ x) := by
  cases s with
  | nil => simp [integerPart, inRange] at h
  | cons c s =>
    by_cases hzero : c = 0x30
    . by_cases hdigit : isDigit (peek s) = true
      . simp [integerPart, hzero, hdigit] at h
      . simp [integerPart, hzero, hdigit] at h
        simp [integerPart, hzero, isDigit_peek_append hx, hdigit, ← h.1, ← h.2]
    . by_cases hrange : inRange c 0x31 0x39 = true
      . unfold integerPart at h ⊢
        rw [peek_cons, if_neg hzero, if_pos hrange] at h
        rw [List.cons_append, peek_cons, if_neg hzero, if_pos hrange]
        rw [← List.cons_append, takeWhile_append_peek hx.1, dropWhile_append_peek hx.1]
        simp only [pure_eq_ok, Except.ok.injEq, Prod.mk.injEq] at h ⊢
        simp [h.1, h.2]
      . simp [integerPart, hzero, hrange] at h

theorem decimalPart_of_peek_ne {s : Str} (h : peek s ≠ 0x2e) : decimalPart s = .ok ([], s) := by
  unfold decimalPart
  rw [if_neg h]
  rfl

theorem exponentPart_of_peek_ne {s : Str} (h : peek s ≠ 0x65) (h' : peek s ≠ 0x45)
    : exponentPart s = .ok ([], s) := by
  unfold exponentPart
  rw [if_neg (by simp [h, h'])]
  rfl

theorem decimalPart_append_right {s t r x : Str} (hx : Delimited x)
    (h : decimalPart s = .ok (t, r)) : decimalPart (s ++ x) = .ok (t, r ++ x) := by
  by_cases hdot : peek s = 0x2e
  . cases s with
    | nil => simp at hdot
    | cons c s =>
      rw [peek_cons] at hdot
      by_cases hdigit : isDigit (peek s) = true
      . simp [decimalPart, hdot, hdigit] at h
        simp [decimalPart, hdot, isDigit_peek_append hx, hdigit, takeWhile_append_peek hx.1,
          dropWhile_append_peek hx.1, h.1, h.2]
      . simp [decimalPart, hdot, hdigit] at h
  . rw [decimalPart_of_peek_ne hdot] at h
    rw [decimalPart_of_peek_ne (peek_ne_of_delimited hx _ (by simp) hdot)]
    simp at h
    simp [h.1, h.2]

theorem exponentPart_append_right {s t r x : Str} (hx : Delimited x)
    (h : exponentPart s = .ok (t, r)) : exponentPart (s ++ x) = .ok (t, r ++ x) := by
  by_cases he : peek s = 0x65 ∨ peek s = 0x45
  . cases s with
    | nil => simp at he
    | cons c s =>
      rw [peek_cons] at he
      by_cases hdigit : isDigit (peek (signPart s).2) = true
      . have hne : s ≠ [] := by
          intro hnil
          rw [hnil] at hdigit
          simp [signPart, isDigit, inRange] at hdigit
        simp [exponentPart, he, hdigit] at h
        simp [exponentPart, he, signPart_append_right hne, isDigit_peek_append hx, hdigit,
          takeWhile_append_peek hx.1, dropWhile_append_peek hx.1, h.2]
        rw [← h.1]
      . simp [exponentPart, he, hdigit] at h
  . simp only [not_or] at he
    rw [exponentPart_of_peek_ne he.1 he.2] at h
    rw [exponentPart_of_peek_ne (peek_ne_of_delimited hx _ (by simp) he.1)
      (peek_ne_of_delimited hx _ (by simp) he.2)]
    simp at h
    simp [h.1, h.2]

theorem parseNumber_ne_nil {F : Double} {s r : Str} {v : Json F}
    (h : parseNumber F s = .ok (v, r)) : s ≠ [] := by
  intro hnil
  have := parseNumber_length_lt h
  rw [hnil] at this
  simp at this

theorem parseNumber_append_right {F : Double} {s r x : Str} {v : Json F} (hx : Delimited x)
    (h : parseNumber F s = .ok (v, r)) : parseNumber F (s ++ x) = .ok (v, r ++ x) := by
  have hne := parseNumber_ne_nil h
  unfold parseNumber at h ⊢
  rw [minusPart_append_right hne]
  generalize minusPart s = p at h ⊢
  rcases p with ⟨minus, u⟩
  simp only [bind_eq_ok] at h
  rcases h with ⟨⟨digits, u₁⟩, hint, h⟩
  dsimp only
  rw [integerPart_append_right hx hint]
  dsimp only at h ⊢
  simp only [ok_bind]
  split at h
  . next hshort =>
    rw [if_pos]
    . simp at h
      simp [h.1, h.2]
    . refine ⟨?_, ?_, ?_, hshort.2.2.2⟩
      . exact peek_ne_of_delimited hx _ (by simp) hshort.1
      . exact peek_ne_of_delimited hx _ (by simp) hshort.2.1
      . exact peek_ne_of_delimited hx _ (by simp) hshort.2.2.1
  . next hlong =>
    simp only [bind_eq_ok] at h
    rcases h with ⟨⟨decimals, u₂⟩, hdec, ⟨exponent, u₃⟩, hexp, h⟩
    rw [if_neg]
    . rw [decimalPart_append_right hx hdec]
      simp only [ok_bind]
      rw [exponentPart_append_right hx hexp]
      simp at h
      simp [h.1, h.2]
    . cases u₁ with
      | nil =>
        intro hshort
        apply hlong
        simpa using hshort.2.2.2
      | cons c u₁ => simpa using hlong

end Json11
