import LedgerApp.Json11.Lemmas.Scan

/-!
Every parser of json11 consumes input when it succeeds and gives a text when it refuses. The bounds
of the loops over members and elements, whose error is the empty text, are therefore never reached.
-/

namespace Json11

open Bytes Outcome

abbrev Consumes {α : Type} (x : Except Str (α × Str)) (s : Str) : Prop :=
  Spec x (fun p => p.2.length < s.length) (· ≠ [])

theorem lit_ne_nil {s : String} (h : s ≠ "") : lit s ≠ [] := by
  simpa [lit] using h

theorem getNextToken_consumes (s : Str) : Consumes (getNextToken s) s := by
  have hlen := consumeWhitespace_length_le s
  unfold getNextToken
  generalize consumeWhitespace s = t at hlen
  cases t with
  | nil => exact lit_ne_nil (by decide)
  | cons c r =>
    apply Spec.pure
    simp only [List.length_cons] at hlen
    dsimp only
    omega

theorem parseString_consumes (out : Str) (last : Option Nat) (s : Str)
    : Consumes (parseString out last s) s := by
  fun_induction parseString out last s with
  | case1 => exact lit_ne_nil (by decide)
  | case2 =>
    apply Spec.pure
    simp
  | case3 =>
    apply Spec.throw
    simp [lit_ne_nil]
  | case4 out last ch s _ _ _ ih =>
    apply ih.mono
    intro p hp
    simp only [List.length_cons]
    omega
  | case5 => exact lit_ne_nil (by decide)
  | case6 out last ch _ _ _ a b c d s' hhex last' out' hjoin ih =>
    apply ih.mono
    intro p hp
    simp only [List.length_cons]
    omega
  | case7 =>
    apply Spec.throw
    simp [lit_ne_nil]
  | case8 =>
    apply Spec.throw
    simp [lit_ne_nil]
  | case9 out last ch _ _ _ e s' _ _ c hc ih =>
    apply ih.mono
    intro p hp
    simp only [List.length_cons]
    omega
  | case10 =>
    apply Spec.throw
    simp [lit_ne_nil]

theorem integerPart_error (s : Str) : Spec (integerPart s) (fun _ => True) (· ≠ []) := by
  unfold integerPart
  apply Spec.ite
  . intro _
    apply Spec.ite
    . intro _
      exact lit_ne_nil (by decide)
    . intro _
      trivial
  . intro _
    apply Spec.ite
    . intro _
      trivial
    . intro _
      apply Spec.throw
      simp [lit_ne_nil]

theorem decimalPart_error (s : Str) : Spec (decimalPart s) (fun _ => True) (· ≠ []) := by
  unfold decimalPart
  apply Spec.ite
  . intro _
    apply Spec.ite
    . intro _
      trivial
    . intro _
      exact lit_ne_nil (by decide)
  . intro _
    trivial

theorem exponentPart_error (s : Str) : Spec (exponentPart s) (fun _ => True) (· ≠ []) := by
  unfold exponentPart
  apply Spec.ite
  . intro _
    apply Spec.ite
    . intro _
      trivial
    . intro _
      exact lit_ne_nil (by decide)
  . intro _
    trivial

theorem parseNumber_consumes (F : Double) (s : Str) : Consumes (parseNumber F s) s := by
  generalize h : parseNumber F s = x
  cases x with
  | ok p => exact parseNumber_length_lt h
  | error e =>
    have hspec : Spec (parseNumber F s) (fun _ => True) (· ≠ []) := by
      unfold parseNumber
      apply Spec.bind (integerPart_error _)
      intro _ _
      apply Spec.ite
      . intro _
        trivial
      . intro _
        apply Spec.bind (decimalPart_error _)
        intro _ _
        apply Spec.bind (exponentPart_error _)
        intro _ _
        trivial
    exact hspec.error h

variable {F : Double}

theorem expect_consumes {expected s : Str} (res : Json F) (hne : expected ≠ [])
    : Consumes (expect expected res s) s := by
  unfold expect
  apply Spec.ite
  . intro htake
    apply Spec.pure
    have hpos := List.length_pos_iff.mpr hne
    have hle := congrArg List.length htake
    simp only [List.length_take] at hle
    simp only [List.length_drop]
    omega
  . intro _
    apply Spec.throw
    simp [lit_ne_nil]

theorem parseElements_consumes {value : Str → Except Str (Json F × Str)}
    (hvalue : ∀ s, Consumes (value s) s)
    : ∀ (n : Nat) (s : Str) (data : List (Json F)),
        0 < n → s.length ≤ n → Consumes (parseElements value n s data) s := by
  intro n
  induction n with
  | zero =>
    intro s data hpos
    contradiction
  | succ n ih =>
    intro s data _ hn
    unfold parseElements
    apply Spec.bind (hvalue s)
    rintro ⟨v, s₁⟩ h₁
    apply Spec.bind (getNextToken_consumes s₁)
    rintro ⟨ch, s₂⟩ h₂
    dsimp only at h₁ h₂ ⊢
    apply Spec.ite
    . intro _
      apply Spec.pure
      dsimp only
      omega
    . intro _
      apply Spec.ite
      . intro _
        apply Spec.throw
        simp [lit_ne_nil]
      . intro _
        apply Spec.bind (getNextToken_consumes s₂)
        rintro ⟨ch', s₃⟩ h₃
        dsimp only at h₃ ⊢
        apply (ih (ch' :: s₃) _ (by omega) (by simp only [List.length_cons]; omega)).mono
        intro p hp
        simp only [List.length_cons] at hp
        omega

theorem parseMembers_consumes {value : Str → Except Str (Json F × Str)}
    (hvalue : ∀ s, Consumes (value s) s)
    : ∀ (n : Nat) (ch : UInt8) (s : Str) (data : List (Str × Json F)),
        s.length < n → Consumes (parseMembers value n ch s data) s := by
  intro n
  induction n with
  | zero =>
    intro ch s data hn
    contradiction
  | succ n ih =>
    intro ch s data hn
    unfold parseMembers
    apply Spec.ite
    . intro _
      apply Spec.throw
      simp [lit_ne_nil]
    . intro _
      apply Spec.bind (parseString_consumes _ _ s)
      rintro ⟨key, s₁⟩ h₁
      apply Spec.bind (getNextToken_consumes s₁)
      rintro ⟨ch₁, s₂⟩ h₂
      dsimp only at h₁ h₂ ⊢
      apply Spec.ite
      . intro _
        apply Spec.throw
        simp [lit_ne_nil]
      . intro _
        apply Spec.bind (hvalue s₂)
        rintro ⟨v, s₃⟩ h₃
        apply Spec.bind (getNextToken_consumes s₃)
        rintro ⟨ch₂, s₄⟩ h₄
        dsimp only at h₃ h₄ ⊢
        apply Spec.ite
        . intro _
          apply Spec.pure
          dsimp only
          omega
        . intro _
          apply Spec.ite
          . intro _
            apply Spec.throw
            simp [lit_ne_nil]
          . intro _
            apply Spec.bind (getNextToken_consumes s₄)
            rintro ⟨ch₃, s₅⟩ h₅
            dsimp only at h₅ ⊢
            apply (ih ch₃ s₅ _ (by omega)).mono
            intro p hp
            omega

theorem parseJson_consumes (F : Double) (levels : Nat)
    : ∀ (s : Str), Consumes (parseJson F levels s) s := by
  induction levels with
  | zero =>
    intro s
    exact lit_ne_nil (by decide)
  | succ levels ih =>
    intro s
    unfold parseJson
    apply Spec.bind (getNextToken_consumes s)
    rintro ⟨ch, s₁⟩ h₁
    dsimp only at h₁ ⊢
    have hrest : ∀ p : Json F × Str, p.2.length < (ch :: s₁).length → p.2.length < s.length := by
      intro p hp
      simp only [List.length_cons] at hp
      omega
    have hword : ∀ (w : String) (res : Json F), w ≠ "" →
        Consumes (expect (lit w) res (ch :: s₁)) s := by
      intro w res hw
      apply (expect_consumes res (lit_ne_nil hw)).mono
      exact hrest
    apply Spec.ite
    . intro _
      apply (parseNumber_consumes F (ch :: s₁)).mono
      exact hrest
    intro _
    apply Spec.ite
    . intro _
      exact hword "true" _ (by decide)
    intro _
    apply Spec.ite
    . intro _
      exact hword "false" _ (by decide)
    intro _
    apply Spec.ite
    . intro _
      exact hword "null" _ (by decide)
    intro _
    apply Spec.ite
    . intro _
      apply Spec.bind (parseString_consumes _ _ s₁)
      rintro ⟨value, s₂⟩ h₂
      apply Spec.pure
      dsimp only at h₂ ⊢
      omega
    intro _
    apply Spec.ite
    . intro _
      apply Spec.bind (getNextToken_consumes s₁)
      rintro ⟨ch₂, s₂⟩ h₂
      dsimp only at h₂ ⊢
      apply Spec.ite
      . intro _
        apply Spec.pure
        dsimp only
        omega
      . intro _
        apply (parseMembers_consumes ih (s₂.length + 1) ch₂ s₂ [] (by omega)).mono
        intro p hp
        omega
    intro _
    apply Spec.ite
    . intro _
      apply Spec.bind (getNextToken_consumes s₁)
      rintro ⟨ch₂, s₂⟩ h₂
      dsimp only at h₂ ⊢
      apply Spec.ite
      . intro _
        apply Spec.pure
        dsimp only
        omega
      . intro _
        apply (parseElements_consumes ih (s₂.length + 1) (ch₂ :: s₂) [] (by omega) (by simp)).mono
        intro p hp
        simp only [List.length_cons] at hp
        omega
    intro _
    apply Spec.throw
    simp [lit_ne_nil]

theorem parseText_error_ne_nil {str e : Str} (h : parseText F str = .error e) : e ≠ [] := by
  have hspec : Spec (parseText F str) (fun _ => True) (· ≠ []) := by
    unfold parseText
    apply Spec.bind (parseJson_consumes F _ str)
    rintro ⟨result, s⟩ _
    dsimp only
    split
    . trivial
    . apply Spec.throw
      simp [lit_ne_nil]
  exact hspec.error h

theorem parse_error_eq_nil {str : Str} : (parse F str).2 = [] ↔ ∃ v, parseText F str = .ok v := by
  unfold parse
  generalize h : parseText F str = x
  cases x with
  | ok v => simp
  | error e => simpa using parseText_error_ne_nil h

theorem parseText_of_parse {str : Str} (h : (parse F str).2 = [])
    : parseText F str = .ok (parse F str).1 := by
  rcases parse_error_eq_nil.mp h with ⟨v, hv⟩
  unfold parse
  rw [hv]

theorem parseText_of_refused {str : Str} (h : (parse F str).2 ≠ [])
    : parseText F str = .error (parse F str).2 := by
  unfold parse at h ⊢
  generalize parseText F str = x at h
  cases x with
  | ok v => simp at h
  | error e => rfl

end Json11
