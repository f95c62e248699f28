import Mathlib.Data.List.Basic

/-!
Texts that are read symbol by symbol over one kind of units and written over another. A code gives
each character a word; a reader sees through a code when it finds the symbol of a character at the
head of every text that starts with its word.
-/

namespace Transcode

variable {α β χ π : Type}

-- `read` gives a symbol and how many units it takes, and `n` bounds the symbols to come
def convert (read : List α → π × Nat) (write : π → List β) : Nat → List α → List β
  | 0, _ => []
  | _, [] => []
  | n + 1, c :: s => write (read (c :: s)).1 ++ convert read write n ((c :: s).drop (read (c :: s)).2)

def run (read : List α → π × Nat) (write : π → List β) (s : List α) : List β :=
  convert read write s.length s

def WellFormed (word : χ → List α) (s : List α) : Prop :=
  ∃ chars : List χ, s = chars.flatMap word

structure Reads (read : List α → π × Nat) (word : χ → List α) (symbol : χ → π) : Prop where
  advances : ∀ s, 0 < (read s).2
  ne_nil : ∀ c, word c ≠ []
  head : ∀ c s, read (word c ++ s) = (symbol c, (word c).length)

def Writes (write : π → List β) (word : χ → List β) (symbol : χ → π) : Prop :=
  ∀ c, write (symbol c) = word c

variable {read : List α → π × Nat} {write : π → List β} {word : χ → List α} {word' : χ → List β}
variable {symbol : χ → π}

theorem Reads.comp {ψ : Type} (h : Reads read word symbol) (f : ψ → χ)
    : Reads read (fun c => word (f c)) (fun c => symbol (f c)) where
  advances := h.advances
  ne_nil := fun c => h.ne_nil (f c)
  head := fun c => h.head (f c)

theorem convert_nil (n : Nat) : convert read write n [] = [] := by
  cases n with
  | zero => rfl
  | succ n => rfl

theorem convert_eq (hread : ∀ s, 0 < (read s).2) {n m : Nat} {s : List α} (hn : s.length ≤ n)
    (hm : s.length ≤ m) : convert read write n s = convert read write m s := by
  induction n generalizing m s with
  | zero => rw [List.length_eq_zero_iff.mp (Nat.le_zero.mp hn), convert_nil, convert_nil]
  | succ n ih =>
    cases s with
    | nil => rw [convert_nil, convert_nil]
    | cons c s =>
      cases m with
      | zero => simp at hm
      | succ m =>
        have hoffset := hread (c :: s)
        rw [List.length_cons] at hn hm
        rw [convert, convert]
        congr 1
        apply ih
        . rw [List.length_drop, List.length_cons]
          omega
        . rw [List.length_drop, List.length_cons]
          omega

theorem run_of_ne_nil (hread : ∀ s, 0 < (read s).2) {s : List α} (h : s ≠ [])
    : run read write s = write (read s).1 ++ run read write (s.drop (read s).2) := by
  cases s with
  | nil => exact absurd rfl h
  | cons c s =>
    have hoffset := hread (c :: s)
    rw [run, List.length_cons, convert, run]
    congr 1
    apply convert_eq hread
    . rw [List.length_drop, List.length_cons]
      omega
    . exact Nat.le_refl _

/-! ## Two codes -/

theorem run_word (hread : Reads read word symbol) (c : χ) (s : List α)
    : run read write (word c ++ s) = write (symbol c) ++ run read write s := by
  have hne : word c ++ s ≠ [] := by
    simp [hread.ne_nil c]
  rw [run_of_ne_nil hread.advances hne, hread.head, List.drop_left]

theorem run_flatMap (hread : Reads read word symbol) (hwrite : Writes write word' symbol)
    (chars : List χ) : run read write (chars.flatMap word) = chars.flatMap word' := by
  induction chars with
  | nil => rfl
  | cons c chars ih =>
    rw [List.flatMap_cons, List.flatMap_cons, run_word hread, hwrite, ih]

-- a reader that finds nothing but symbols of characters writes a well formed text, whatever it
-- reads
theorem wellFormed_run (hsymbol : ∀ s, ∃ c, (read s).1 = symbol c)
    (hwrite : Writes write word' symbol) (s : List α) : WellFormed word' (run read write s) := by
  unfold run
  generalize s.length = n
  induction n generalizing s with
  | zero => exact ⟨[], rfl⟩
  | succ n ih =>
    cases s with
    | nil => exact ⟨[], rfl⟩
    | cons c s =>
      rcases hsymbol (c :: s) with ⟨head, hhead⟩
      rcases ih ((c :: s).drop (read (c :: s)).2) with ⟨chars, hchars⟩
      refine ⟨head :: chars, ?_⟩
      rw [convert, hhead, hwrite, hchars, List.flatMap_cons]

theorem length_run_le
    (hlength : ∀ s, s ≠ [] → (write (read s).1).length ≤ (read s).2 ∧ (read s).2 ≤ s.length)
    (s : List α) : (run read write s).length ≤ s.length := by
  have hconvert : ∀ n, (convert read write n s).length ≤ s.length := by
    intro n
    induction n generalizing s with
    | zero => exact Nat.zero_le _
    | succ n ih =>
      cases s with
      | nil => exact Nat.zero_le _
      | cons c s =>
        have hhead := hlength (c :: s) (by simp)
        have htail := ih ((c :: s).drop (read (c :: s)).2)
        rw [List.length_drop] at htail
        rw [convert, List.length_append]
        omega
  exact hconvert s.length

end Transcode
