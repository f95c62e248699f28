import LedgerApp.Json11.Dump

/-!
Induction over JSON values, and the predicates on values stated by membership.
-/

namespace Json11
namespace Json

variable {F : Double}

@[elab_as_elim]
theorem induction {P : Json F → Prop} (null : P .null) (bool : ∀ value, P (.bool value))
    (int : ∀ value, P (.int value)) (double : ∀ value, P (.double value))
    (string : ∀ value, P (.string value))
    (array : ∀ items, (∀ v ∈ items, P v) → P (.array items))
    (object : ∀ fields, (∀ p ∈ fields, P p.2) → P (.object fields)) (v : Json F) : P v := by
  apply @Json.rec F P (fun items => ∀ v ∈ items, P v) (fun fields => ∀ p ∈ fields, P p.2)
    (fun p => P p.2)
  . exact null
  . exact bool
  . exact int
  . exact double
  . exact string
  . exact array
  . exact object
  . simp
  . intro v items hv hitems
    simp only [List.mem_cons, forall_eq_or_imp]
    exact ⟨hv, hitems⟩
  . simp
  . intro p fields hp hfields
    simp only [List.mem_cons, forall_eq_or_imp]
    exact ⟨hp, hfields⟩
  . intro k v hv
    exact hv

theorem eq_array {v : Json F} (h : v.isArray = true) : v = .array v.arrayItems := by
  cases v with
  | array items => rfl
  | _ => contradiction

theorem finiteItems_iff {items : List (Json F)} : FiniteItems items ↔ ∀ v ∈ items, Finite v := by
  induction items with
  | nil => simp [FiniteItems]
  | cons v items ih => simp [FiniteItems, ih]

theorem finiteFields_iff {fields : List (Str × Json F)}
    : FiniteFields fields ↔ ∀ p ∈ fields, Finite p.2 := by
  induction fields with
  | nil => simp [FiniteFields]
  | cons p fields ih =>
    rcases p with ⟨k, v⟩
    simp only [FiniteFields, ih, List.mem_cons, forall_eq_or_imp]

theorem canonicalItems_iff {items : List (Json F)}
    : CanonicalItems items ↔ ∀ v ∈ items, Canonical v := by
  induction items with
  | nil => simp [CanonicalItems]
  | cons v items ih => simp [CanonicalItems, ih]

theorem canonicalFields_iff {fields : List (Str × Json F)}
    : CanonicalFields fields ↔ ∀ p ∈ fields, Canonical p.2 := by
  induction fields with
  | nil => simp [CanonicalFields]
  | cons p fields ih =>
    rcases p with ⟨k, v⟩
    simp only [CanonicalFields, ih, List.mem_cons, forall_eq_or_imp]

theorem depthItems_le_iff {items : List (Json F)} {n : Nat}
    : depthItems items ≤ n ↔ ∀ v ∈ items, depth v ≤ n := by
  induction items with
  | nil => simp [depthItems]
  | cons v items ih => simp [depthItems, ih]

theorem depthFields_le_iff {fields : List (Str × Json F)} {n : Nat}
    : depthFields fields ≤ n ↔ ∀ p ∈ fields, depth p.2 ≤ n := by
  induction fields with
  | nil => simp [depthFields]
  | cons p fields ih =>
    rcases p with ⟨k, v⟩
    simp only [depthFields, sup_le_iff, ih, List.mem_cons, forall_eq_or_imp]

theorem equalItems_iff {as bs : List (Json F)}
    : equalItems as bs = true ↔ List.Forall₂ (fun a b => equals a b = true) as bs := by
  induction as generalizing bs with
  | nil =>
    cases bs with
    | nil => simp [equalItems]
    | cons b bs => simp [equalItems]
  | cons a as ih =>
    cases bs with
    | nil => simp [equalItems]
    | cons b bs => simp [equalItems, ih]

theorem equalFields_iff {as bs : List (Str × Json F)}
    : equalFields as bs = true ↔
        List.Forall₂ (fun a b => a.1 = b.1 ∧ equals a.2 b.2 = true) as bs := by
  induction as generalizing bs with
  | nil =>
    cases bs with
    | nil => simp [equalFields]
    | cons b bs => simp [equalFields]
  | cons a as ih =>
    cases bs with
    | nil => simp [equalFields]
    | cons b bs => simp [equalFields, ih]

theorem dumpItems_eq_intercalate (items : List (Json F))
    : dumpItems items = (Bytes.lit ", ").intercalate (items.map dump) := by
  induction items with
  | nil => rfl
  | cons v items ih =>
    cases items with
    | nil => simp [dumpItems]
    | cons w items =>
      rw [dumpItems, ih]
      . simp
      . simp

def dumpField (p : Str × Json F) : Str :=
  dumpString p.1 ++ Bytes.lit ": " ++ dump p.2

theorem dumpFields_eq_intercalate (fields : List (Str × Json F))
    : dumpFields fields = (Bytes.lit ", ").intercalate (fields.map dumpField) := by
  induction fields with
  | nil => rfl
  | cons p fields ih =>
    rcases p with ⟨k, v⟩
    cases fields with
    | nil => simp [dumpFields, dumpField]
    | cons q fields =>
      rw [dumpFields, ih]
      . simp [dumpField]
      . simp

theorem mem_insert {key : Str} {value : Json F} {fields : List (Str × Json F)} {p : Str × Json F}
    (h : p ∈ insert key value fields) : p = (key, value) ∨ p ∈ fields := by
  induction fields with
  | nil => simpa [insert] using h
  | cons q fields ih =>
    rcases q with ⟨k, v⟩
    unfold insert at h
    split at h
    . simp only [List.mem_cons] at h ⊢
      grind
    . split at h
      . simpa using h
      . simp only [List.mem_cons] at h ⊢
        grind

theorem insert_sorted {key : Str} {value : Json F} {fields : List (Str × Json F)}
    (h : (keys fields).Pairwise (· < ·)) : (keys (insert key value fields)).Pairwise (· < ·) := by
  induction fields with
  | nil => simp [insert, keys]
  | cons q fields ih =>
    rcases q with ⟨k, v⟩
    simp only [keys, List.map_cons, List.pairwise_cons] at h ih
    unfold insert
    split
    . next heq =>
      rw [heq]
      simpa [keys] using h
    . next hne =>
      split
      . next hlt =>
        simp only [keys, List.map_cons, List.pairwise_cons, List.mem_cons]
        refine ⟨?_, h⟩
        intro a ha
        rcases ha with ha | ha
        . rw [ha]
          exact hlt
        . exact List.lt_trans hlt (h.1 a ha)
      . next hnlt =>
        simp only [keys, List.map_cons, List.pairwise_cons]
        refine ⟨?_, ih h.2⟩
        intro a ha
        simp only [List.mem_map] at ha
        rcases ha with ⟨p, hp, hpa⟩
        rcases mem_insert hp with hp | hp
        . rw [← hpa, hp]
          have hle : k ≤ key := List.not_lt.mp hnlt
          rcases List.le_iff_lt_or_eq.mp hle with hlt | heq
          . exact hlt
          . exact absurd heq.symm hne
        . apply h.1 a
          rw [← hpa]
          exact List.mem_map_of_mem hp

theorem insert_eq_append {key : Str} {value : Json F} {fields : List (Str × Json F)}
    (h : ∀ k ∈ keys fields, k < key) : insert key value fields = fields ++ [(key, value)] := by
  induction fields with
  | nil => rfl
  | cons q fields ih =>
    rcases q with ⟨k, v⟩
    simp only [keys, List.map_cons, List.mem_cons, forall_eq_or_imp] at h ih
    unfold insert
    rw [if_neg, if_neg, ih h.2]
    . rfl
    . intro hlt
      exact List.lt_irrefl k (List.lt_trans h.1 hlt)
    . intro heq
      rw [heq] at h
      exact List.lt_irrefl k h.1

end Json
end Json11
