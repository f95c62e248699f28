import Mathlib.Data.Nat.Digits.Defs
import Mathlib.Data.Nat.Digits.Lemmas

/-!
Byte strings, as `std::string` has them, with the decimal notation of integers in them.
-/

abbrev Str := List UInt8

namespace Bytes

def lit (s : String) : Str :=
  s.toList.map fun c => UInt8.ofNat c.toNat

-- past the end there is the terminating NUL
def peek (s : Str) : UInt8 :=
  s.headD 0

def inRange (x lower upper : UInt8) : Bool :=
  lower ≤ x && x ≤ upper

def isDigit (c : UInt8) : Bool :=
  inRange c 0x30 0x39

@[simp]
theorem peek_nil : peek [] = 0 := rfl

@[simp]
theorem peek_cons (c : UInt8) (s : Str) : peek (c :: s) = c := rfl

theorem peek_append_of_ne_nil {s : Str} (h : s ≠ []) (x : Str) : peek (s ++ x) = peek s := by
  cases s with
  | nil => contradiction
  | cons c s => rfl

theorem takeWhile_append_peek {p : UInt8 → Bool} {s x : Str} (h : p (peek x) = false)
    : (s ++ x).takeWhile p = s.takeWhile p := by
  induction s with
  | nil =>
    cases x with
    | nil => rfl
    | cons c x =>
      simp only [peek_cons] at h
      simp [h]
  | cons c s ih =>
    simp only [List.cons_append, List.takeWhile_cons]
    split
    . rw [ih]
    . rfl

theorem dropWhile_append_peek {p : UInt8 → Bool} {s x : Str} (h : p (peek x) = false)
    : (s ++ x).dropWhile p = s.dropWhile p ++ x := by
  induction s with
  | nil =>
    cases x with
    | nil => rfl
    | cons c x =>
      simp only [peek_cons] at h
      simp [h]
  | cons c s ih =>
    simp only [List.cons_append, List.dropWhile_cons]
    split
    . rw [ih]
    . rfl

/-! ## Decimal notation: `%u`, `%d` and `atoi` -/

def digit (d : Nat) : UInt8 :=
  UInt8.ofNat (0x30 + d)

def decimalNat (n : Nat) : Str :=
  if n = 0 then
    [0x30]
  else
    ((Nat.digits 10 n).map digit).reverse

def decimal (n : Int) : Str :=
  if n < 0 then
    0x2d :: decimalNat n.natAbs
  else
    decimalNat n.natAbs

def readNat (s : Str) : Nat :=
  Nat.ofDigits 10 (s.reverse.map fun c => c.toNat - 0x30)

def atoi (s : Str) : Int :=
  match s with
  | 0x2d :: ds => - (readNat ds : Int)
  | ds => readNat ds

theorem digit_toNat {d : Nat} (h : d < 10) : (digit d).toNat - 0x30 = d := by
  simp only [digit, UInt8.toNat_ofNat']
  omega

theorem isDigit_digit {d : Nat} (h : d < 10) : isDigit (digit d) = true := by
  interval_cases d <;> rfl

theorem decimalNat_ne_nil (n : Nat) : decimalNat n ≠ [] := by
  unfold decimalNat
  split
  . simp
  . next h =>
    simpa [Nat.digits_ne_nil_iff_ne_zero] using h

theorem isDigit_of_mem_decimalNat {n : Nat} {c : UInt8} (h : c ∈ decimalNat n)
    : isDigit c = true := by
  unfold decimalNat at h
  split at h
  . simp only [List.mem_singleton] at h
    rw [h]
    rfl
  . simp only [List.mem_reverse, List.mem_map] at h
    rcases h with ⟨d, hd, rfl⟩
    exact isDigit_digit (Nat.digits_lt_base (by omega) hd)

@[simp]
theorem readNat_decimalNat (n : Nat) : readNat (decimalNat n) = n := by
  unfold decimalNat
  split
  . next h =>
    rw [h]
    rfl
  . have hdigits : (Nat.digits 10 n).map ((fun c => c.toNat - 0x30) ∘ digit) = Nat.digits 10 n := by
      conv_rhs => rw [← List.map_id (Nat.digits 10 n)]
      apply List.map_congr_left
      intro d hd
      exact digit_toNat (Nat.digits_lt_base (by omega) hd)
    rw [readNat, List.reverse_reverse, List.map_map, hdigits, Nat.ofDigits_digits]

theorem atoi_decimal (n : Int) : atoi (decimal n) = n := by
  unfold decimal
  split
  . simp only [atoi, readNat_decimalNat]
    omega
  . have hne : ∀ ds : Str, decimalNat n.natAbs ≠ 0x2d :: ds := by
      intro ds heq
      have := isDigit_of_mem_decimalNat (n := n.natAbs) (c := 0x2d) (by rw [heq]; simp)
      simp [isDigit, inRange] at this
    unfold atoi
    split
    . next heq => exact absurd heq (hne _)
    . rw [readNat_decimalNat]
      omega

end Bytes
