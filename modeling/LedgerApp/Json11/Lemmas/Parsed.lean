import LedgerApp.Json11.Lemmas.ParseDump

/-!
What the parser builds: every value it returns is canonical and stays within the depth it was given,
so that `parse` reads back the `dump` of every part of a value that came from a text.
-/

namespace Json11

open Bytes Outcome

variable {F : Double}

theorem decimalNat_readNat_length_le {ds : Str} (hne : ds ≠ [])
    (hdigit : ∀ c ∈ ds, isDigit c = true) : (decimalNat (readNat ds)).length ≤ ds.length := by
  have hpos := List.length_pos_iff.mpr hne
  unfold decimalNat
  split
  . simp only [List.length_cons, List.length_nil]
    omega
  . rw [List.length_reverse, List.length_map, Nat.digits_length_le_iff (by omega), readNat]
    have hlt : ∀ d ∈ ds.reverse.map (fun c => c.toNat - 0x30), d < 10 := by
      intro d hd
      simp only [List.mem_map, List.mem_reverse] at hd
      rcases hd with ⟨c, hc, rfl⟩
      have := hdigit c hc
      simp only [isDigit, inRange, Bool.and_eq_true, decide_eq_true_eq, UInt8.le_iff_toNat_le] at this
      have h9 : (0x39 : UInt8).toNat = 57 := rfl
      omega
    have := Nat.ofDigits_lt_base_pow_length (by omega : 1 < 10) hlt
    simpa using this

theorem integerPart_digits {s t r : Str} (h : integerPart s = .ok (t, r))
    : ∀ c ∈ t, isDigit c = true := by
  unfold integerPart at h
  split at h
  . split at h
    . simp at h
    . simp at h
      rw [← h.1]
      simp [isDigit, inRange]
  . split at h
    . simp at h
      rw [← h.1]
      intro c hc
      exact List.mem_takeWhile_imp hc
    . simp at h

theorem decimal_neg_length_le (n : Nat)
    : (decimal (-(n : Int))).length ≤ (decimalNat n).length + 1 := by
  unfold decimal
  split
  . simp
  . simp

theorem decimal_atoi_length_le {minus digits : Str} (hminus : minus = [] ∨ minus = [0x2d])
    (hne : digits ≠ []) (hdigit : ∀ c ∈ digits, isDigit c = true)
    : (decimal (atoi (minus ++ digits))).length ≤ (minus ++ digits).length := by
  have hlen := decimalNat_readNat_length_le hne hdigit
  rcases hminus with hminus | hminus
  . rw [hminus, List.nil_append]
    unfold atoi
    split
    . next heq =>
      have := hdigit 0x2d (by simp)
      simp [isDigit, inRange] at this
    . have hnat : ¬(readNat digits : Int) < 0 := by omega
      rw [decimal, if_neg hnat]
      exact hlen
  . rw [hminus]
    simp only [List.cons_append, List.nil_append, atoi, List.length_cons]
    have := decimal_neg_length_le (readNat digits)
    omega

theorem minusPart_eq (s : Str) : (minusPart s).1 = [] ∨ (minusPart s).1 = [0x2d] := by
  unfold minusPart
  split
  . simp
  . simp

theorem parseNumber_wellFormed {s r : Str} {v : Json F} (h : parseNumber F s = .ok (v, r))
    : v.Canonical ∧ v.depth = 0 := by
  unfold parseNumber at h
  have hminus := minusPart_eq s
  generalize minusPart s = p at hminus h
  rcases p with ⟨minus, u⟩
  simp only [bind_eq_ok] at h
  rcases h with ⟨⟨digits, u₁⟩, hint, h⟩
  dsimp only at h hminus
  split at h
  . next hnine =>
    simp at h
    rw [← h.1]
    refine ⟨?_, by simp [Json.depth]⟩
    have := decimal_atoi_length_le hminus (integerPart_ne_nil hint) (integerPart_digits hint)
    rw [Json.Canonical]
    omega
  . simp only [bind_eq_ok] at h
    rcases h with ⟨_, _, _, _, h⟩
    simp at h
    rw [← h.1]
    simp [Json.Canonical, Json.depth]

def WellFormed (levels : Nat) (v : Json F) : Prop :=
  v.Canonical ∧ v.depth ≤ levels

theorem wellFormed_array {levels : Nat} {items : List (Json F)}
    (h : ∀ v ∈ items, WellFormed levels v) : WellFormed (levels + 1) (.array items) := by
  refine ⟨?_, ?_⟩
  . rw [Json.Canonical, Json.canonicalItems_iff]
    exact fun v hv => (h v hv).1
  . rw [Json.depth, Nat.add_le_add_iff_right, Json.depthItems_le_iff]
    exact fun v hv => (h v hv).2

theorem wellFormed_object {levels : Nat} {fields : List (Str × Json F)}
    (hsorted : (Json.keys fields).Pairwise (· < ·)) (h : ∀ p ∈ fields, WellFormed levels p.2)
    : WellFormed (levels + 1) (.object fields) := by
  refine ⟨?_, ?_⟩
  . rw [Json.Canonical, Json.canonicalFields_iff]
    exact ⟨hsorted, fun p hp => (h p hp).1⟩
  . rw [Json.depth, Nat.add_le_add_iff_right, Json.depthFields_le_iff]
    exact fun p hp => (h p hp).2

abbrev Builds (levels : Nat) (x : Except Str (Json F × Str)) : Prop :=
  Spec x (fun p => WellFormed levels p.1) (fun _ => True)

theorem expect_builds {levels : Nat} (expected : Str) {res : Json F} (s : Str)
    (h : WellFormed levels res) : Builds levels (expect expected res s) := by
  unfold expect
  apply Spec.ite
  . intro _
    exact h
  . intro _
    trivial

theorem parseElements_builds {levels : Nat} {value : Str → Except Str (Json F × Str)}
    (hvalue : ∀ s, Builds levels (value s))
    : ∀ (n : Nat) (s : Str) (data : List (Json F)), (∀ v ∈ data, WellFormed levels v) →
        Builds (levels + 1) (parseElements value n s data) := by
  intro n
  induction n with
  | zero =>
    intro s data _
    trivial
  | succ n ih =>
    intro s data hdata
    unfold parseElements
    apply Spec.bind (hvalue s)
    rintro ⟨v, s₁⟩ hv
    have hsnoc : ∀ w ∈ data ++ [v], WellFormed levels w := by
      intro w hw
      rw [List.mem_append, List.mem_singleton] at hw
      rcases hw with hw | hw
      . exact hdata w hw
      . rw [hw]
        exact hv
    apply Spec.bind (Spec.always _)
    rintro ⟨ch, s₂⟩ _
    apply Spec.ite
    . intro _
      exact wellFormed_array hsnoc
    . intro _
      apply Spec.ite
      . intro _
        trivial
      . intro _
        apply Spec.bind (Spec.always _)
        rintro ⟨ch', s₃⟩ _
        exact ih (ch' :: s₃) _ hsnoc

theorem parseMembers_builds {levels : Nat} {value : Str → Except Str (Json F × Str)}
    (hvalue : ∀ s, Builds levels (value s))
    : ∀ (n : Nat) (ch : UInt8) (s : Str) (data : List (Str × Json F)),
        (Json.keys data).Pairwise (· < ·) → (∀ p ∈ data, WellFormed levels p.2) →
        Builds (levels + 1) (parseMembers value n ch s data) := by
  intro n
  induction n with
  | zero =>
    intro ch s data _ _
    trivial
  | succ n ih =>
    intro ch s data hsorted hdata
    unfold parseMembers
    apply Spec.ite
    . intro _
      trivial
    . intro _
      apply Spec.bind (Spec.always _)
      rintro ⟨key, s₁⟩ _
      apply Spec.bind (Spec.always _)
      rintro ⟨ch₁, s₂⟩ _
      apply Spec.ite
      . intro _
        trivial
      . intro _
        apply Spec.bind (hvalue s₂)
        rintro ⟨v, s₃⟩ hv
        have hinsert : ∀ p ∈ Json.insert key v data, WellFormed levels p.2 := by
          intro p hp
          rcases Json.mem_insert hp with hp | hp
          . rw [hp]
            exact hv
          . exact hdata p hp
        apply Spec.bind (Spec.always _)
        rintro ⟨ch₂, s₄⟩ _
        apply Spec.ite
        . intro _
          exact wellFormed_object (Json.insert_sorted hsorted) hinsert
        . intro _
          apply Spec.ite
          . intro _
            trivial
          . intro _
            apply Spec.bind (Spec.always _)
            rintro ⟨ch₃, s₅⟩ _
            exact ih ch₃ s₅ _ (Json.insert_sorted hsorted) hinsert

theorem wellFormed_scalar {levels : Nat} {v : Json F} (hcanonical : v.Canonical)
    (hdepth : v.depth = 0) : WellFormed levels v := by
  refine ⟨hcanonical, ?_⟩
  omega

theorem parseNumber_builds (levels : Nat) (s : Str) : Builds levels (parseNumber F s) := by
  generalize h : parseNumber F s = x
  cases x with
  | ok p =>
    have := parseNumber_wellFormed h
    exact wellFormed_scalar this.1 this.2
  | error e => trivial

theorem parseJson_builds (F : Double) (levels : Nat)
    : ∀ (s : Str), Builds levels (parseJson F levels s) := by
  induction levels with
  | zero =>
    intro s
    trivial
  | succ levels ih =>
    intro s
    have hword : ∀ (w : String) (res : Json F), res.Canonical → res.depth = 0 → ∀ t,
        Builds (levels + 1) (expect (lit w) res t) := by
      intro w res hcanonical hdepth t
      apply expect_builds
      exact wellFormed_scalar hcanonical hdepth
    unfold parseJson
    apply Spec.bind (Spec.always _)
    rintro ⟨ch, s₁⟩ _
    dsimp only
    apply Spec.ite
    . intro _
      exact parseNumber_builds _ _
    intro _
    apply Spec.ite
    . intro _
      apply hword
      . simp [Json.Canonical]
      . simp [Json.depth]
    intro _
    apply Spec.ite
    . intro _
      apply hword
      . simp [Json.Canonical]
      . simp [Json.depth]
    intro _
    apply Spec.ite
    . intro _
      apply hword
      . simp [Json.Canonical]
      . simp [Json.depth]
    intro _
    apply Spec.ite
    . intro _
      apply Spec.bind (Spec.always _)
      rintro ⟨value, s₂⟩ _
      apply wellFormed_scalar
      . simp [Json.Canonical]
      . simp [Json.depth]
    intro _
    apply Spec.ite
    . intro _
      apply Spec.bind (Spec.always _)
      rintro ⟨ch₂, s₂⟩ _
      apply Spec.ite
      . intro _
        apply wellFormed_object
        . simp [Json.keys]
        . simp
      . intro _
        apply parseMembers_builds ih
        . simp [Json.keys]
        . simp
    intro _
    apply Spec.ite
    . intro _
      apply Spec.bind (Spec.always _)
      rintro ⟨ch₂, s₂⟩ _
      apply Spec.ite
      . intro _
        apply wellFormed_array
        simp
      . intro _
        apply parseElements_builds ih
        simp
    intro _
    trivial

theorem parseText_wellFormed {str : Str} {v : Json F} (h : parseText F str = .ok v)
    : WellFormed (maxDepth + 1) v := by
  have hspec : Spec (parseText F str) (WellFormed (maxDepth + 1)) (fun _ => True) := by
    unfold parseText
    apply Spec.bind (parseJson_builds F _ str)
    rintro ⟨result, s⟩ hresult
    dsimp only
    split
    . exact hresult
    . trivial
  exact hspec.ok h

end Json11
