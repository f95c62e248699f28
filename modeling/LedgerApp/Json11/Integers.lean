import LedgerApp.Json11.Lemmas.Reads

/-!
The `double` values that are integers, with the C functions on them. They are enough for texts
without fractions and exponents.
-/

namespace Json11

open Bytes Outcome

def Double.integers : Double where
  Val := Int
  strtod := atoi
  isfinite := fun _ => true
  snprintf := decimal
  ofInt := fun n => n
  eq := fun a b => decide (a = b)

theorem Double.integers_finite (v : Json Double.integers) : v.Finite := by
  induction v using Json.induction with
  | array items ih =>
    rw [Json.Finite, Json.finiteItems_iff]
    exact ih
  | object fields ih =>
    rw [Json.Finite, Json.finiteFields_iff]
    exact ih
  | double value => rfl
  | _ => trivial

theorem parseNumber_long {n : Int} (h : ¬(decimal n).length ≤ 9)
    : parseNumber Double.integers (decimal n) = .ok (.double n, []) := by
  have hint := integerPart_decimalNat n.natAbs delimited_nil
  have hminus := minusPart_decimal n []
  simp only [List.append_nil] at hint hminus
  unfold parseNumber
  rw [hminus]
  dsimp only
  rw [hint, ok_bind]
  dsimp only
  rw [decimal_eq_append, if_neg (by tauto)]
  have hdecimal : decimalPart [] = .ok ([], []) := rfl
  have hexponent : exponentPart [] = .ok ([], []) := rfl
  rw [hdecimal, ok_bind]
  dsimp only
  rw [hexponent, ok_bind]
  simp only [List.append_nil]
  have : Double.integers.strtod (decimal n) = n := atoi_decimal n
  rw [this]
  rfl

theorem Double.integers_eq_self (n : Int) : Double.integers.eq n n = true :=
  decide_eq_true (rfl : n = n)

theorem Double.integers_lawful : Double.integers.Lawful where
  eq_ofInt := Double.integers_eq_self
  parse_snprintf := by
    intro d _
    by_cases hlen : (decimal d).length ≤ 9
    . refine ⟨.int d, ?_, Double.integers_eq_self d⟩
      have := parseNumber_decimal Double.integers hlen delimited_nil
      rw [List.append_nil] at this
      exact this
    . exact ⟨.double d, parseNumber_long hlen, Double.integers_eq_self d⟩

end Json11
