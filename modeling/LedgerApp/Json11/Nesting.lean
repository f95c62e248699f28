import LedgerApp.Json11.Integers
import LedgerApp.Json11.Lemmas.ParseDump

/-!
What `parse` makes of the text that `dump` writes for a value of any shape: the value itself, with
null in the place of each number that is not finite, unless the containers are nested too deep.
-/

namespace Json11

open Bytes Outcome

namespace Json

variable {F : Double}

mutual

-- how many containers that are not empty are around the innermost value
def nesting : Json F → Nat
  | .array items => nestingItems items
  | .object fields => nestingFields fields
  | _ => 0

def nestingItems : List (Json F) → Nat
  | [] => 0
  | v :: items => max (nesting v + 1) (nestingItems items)

def nestingFields : List (Str × Json F) → Nat
  | [] => 0
  | (_, v) :: fields => max (nesting v + 1) (nestingFields fields)

end

mutual

def nulled : Json F → Json F
  | .double value => if F.isfinite value then .double value else .null
  | .array items => .array (nulledItems items)
  | .object fields => .object (nulledFields fields)
  | v => v

def nulledItems : List (Json F) → List (Json F)
  | [] => []
  | v :: items => nulled v :: nulledItems items

def nulledFields : List (Str × Json F) → List (Str × Json F)
  | [] => []
  | (k, v) :: fields => (k, nulled v) :: nulledFields fields

end

theorem nestingItems_le_iff {items : List (Json F)} {n : Nat}
    : nestingItems items ≤ n ↔ ∀ v ∈ items, nesting v < n := by
  induction items with
  | nil => simp [nestingItems]
  | cons v items ih => simp [nestingItems, ih]

theorem nestingFields_le_iff {fields : List (Str × Json F)} {n : Nat}
    : nestingFields fields ≤ n ↔ ∀ p ∈ fields, nesting p.2 < n := by
  induction fields with
  | nil => simp [nestingFields]
  | cons p fields ih =>
    rcases p with ⟨k, v⟩
    simp only [nestingFields, sup_le_iff, ih, List.mem_cons, forall_eq_or_imp, Nat.add_one_le_iff]

theorem nulledItems_eq_map (items : List (Json F)) : nulledItems items = items.map nulled := by
  induction items with
  | nil => rfl
  | cons v items ih => rw [nulledItems, ih, List.map_cons]

theorem nulledFields_eq_map (fields : List (Str × Json F))
    : nulledFields fields = fields.map fun p => (p.1, nulled p.2) := by
  induction fields with
  | nil => rfl
  | cons p fields ih => rw [nulledFields, ih, List.map_cons]

theorem keys_nulledFields (fields : List (Str × Json F))
    : keys (nulledFields fields) = keys fields := by
  rw [nulledFields_eq_map]
  simp [keys, Function.comp_def]

theorem finite_nulled (v : Json F) : v.nulled.Finite := by
  induction v using Json.induction with
  | double value =>
    rw [nulled]
    split
    . next h => exact h
    . trivial
  | array items ih =>
    rw [nulled, Finite, finiteItems_iff, nulledItems_eq_map, List.forall_mem_map]
    exact ih
  | object fields ih =>
    rw [nulled, Finite, finiteFields_iff, nulledFields_eq_map, List.forall_mem_map]
    exact ih
  | _ => trivial

theorem canonical_nulled {v : Json F} (h : v.Canonical) : v.nulled.Canonical := by
  induction v using Json.induction with
  | double value =>
    rw [nulled]
    split
    . trivial
    . trivial
  | array items ih =>
    rw [Canonical, canonicalItems_iff] at h
    rw [nulled, Canonical, canonicalItems_iff, nulledItems_eq_map, List.forall_mem_map]
    exact fun v hv => ih v hv (h v hv)
  | object fields ih =>
    rw [Canonical, canonicalFields_iff] at h
    rw [nulled, Canonical, canonicalFields_iff, keys_nulledFields, nulledFields_eq_map,
      List.forall_mem_map]
    exact ⟨h.1, fun p hp => ih p hp (h.2 p hp)⟩
  | _ => exact h

theorem dump_nulled (v : Json F) : v.nulled.dump = v.dump := by
  induction v using Json.induction with
  | double value =>
    rw [nulled]
    split
    . rfl
    . next h => rw [dump, dump, if_neg h]
  | array items ih =>
    rw [nulled, dump, dump, dumpItems_eq_intercalate, dumpItems_eq_intercalate, nulledItems_eq_map,
      List.map_map]
    congr 3
    exact List.map_congr_left ih
  | object fields ih =>
    rw [nulled, dump, dump, dumpFields_eq_intercalate, dumpFields_eq_intercalate,
      nulledFields_eq_map, List.map_map]
    congr 3
    apply List.map_congr_left
    intro p hp
    simp only [Function.comp_apply, dumpField, ih p hp]
  | _ => rfl

theorem nesting_nulled (v : Json F) : v.nulled.nesting = v.nesting := by
  have hitems : ∀ items : List (Json F), (∀ v ∈ items, v.nulled.nesting = v.nesting) →
      nestingItems (nulledItems items) = nestingItems items := by
    intro items h
    induction items with
    | nil => rfl
    | cons v items ih =>
      simp only [List.mem_cons, forall_eq_or_imp] at h
      rw [nulledItems, nestingItems, nestingItems, h.1, ih h.2]
  have hfields : ∀ fields : List (Str × Json F), (∀ p ∈ fields, p.2.nulled.nesting = p.2.nesting) →
      nestingFields (nulledFields fields) = nestingFields fields := by
    intro fields h
    induction fields with
    | nil => rfl
    | cons p fields ih =>
      simp only [List.mem_cons, forall_eq_or_imp] at h
      rw [nulledFields, nestingFields, nestingFields, h.1, ih h.2]
  induction v using Json.induction with
  | double value =>
    rw [nulled]
    split
    . rfl
    . rfl
  | array items ih =>
    rw [nulled, nesting, nesting]
    exact hitems items ih
  | object fields ih =>
    rw [nulled, nesting, nesting]
    exact hfields fields ih
  | _ => rfl

end Json

variable {F : Double}

/-! ## Values that are not nested too deep -/

theorem reads_dump (hF : F.Lawful) (v : Json F)
    : ∀ levels, v.Canonical → v.Finite → v.nesting < levels →
        Reads (parseJson F levels) v.dump v := by
  induction v using Json.induction with
  | null
  | bool value
  | int value
  | double value
  | string value => exact parseJson_dump hF _
  | array items ih =>
    intro levels hcanonical hfinite hlevels x _
    cases levels with
    | zero => contradiction
    | succ levels =>
      rw [Json.Canonical, Json.canonicalItems_iff] at hcanonical
      rw [Json.Finite, Json.finiteItems_iff] at hfinite
      rw [Json.nesting, Nat.lt_add_one_iff, Json.nestingItems_le_iff] at hlevels
      have hitems : List.Forall₂ (fun t v => Reads (parseJson F levels) t v ∧ StartsValue t)
          (items.map Json.dump) items := by
        rw [List.forall₂_map_left_iff, List.forall₂_same]
        intro v hv
        refine ⟨?_, startsValue_dump hF (hcanonical v hv) (hfinite v hv)⟩
        exact ih v hv levels (hcanonical v hv) (hfinite v hv) (hlevels v hv)
      rcases parseJson_array isSeparator_comma_space hitems x with ⟨items', hparse, hequal⟩
      refine ⟨.array items', ?_, ?_⟩
      . rw [Json.dump, Json.dumpItems_eq_intercalate]
        simpa using hparse
      . rw [Json.equals, Json.equalItems_iff]
        exact hequal
  | object fields ih =>
    intro levels hcanonical hfinite hlevels x _
    cases levels with
    | zero => contradiction
    | succ levels =>
      rw [Json.Canonical, Json.canonicalFields_iff] at hcanonical
      rw [Json.Finite, Json.finiteFields_iff] at hfinite
      rw [Json.nesting, Nat.lt_add_one_iff, Json.nestingFields_le_iff] at hlevels
      have hfields : ∀ p ∈ fields, Reads (parseJson F levels) p.2.dump p.2 := by
        intro p hp
        exact ih p hp levels (hcanonical.2 p hp) (hfinite p hp) (hlevels p hp)
      rcases parseJson_object hcanonical.1 hfields x with ⟨fields', hparse, hequal⟩
      refine ⟨.object fields', hparse, ?_⟩
      rw [Json.equals, Json.equalFields_iff]
      exact hequal

/-! ## Values that are -/

def tooDeep : Str :=
  lit "exceeded maximum nesting depth"

def Refuses (value : Str → Except Str (Json F × Str)) (t : Str) : Prop :=
  ∀ x, Delimited x → value (t ++ x) = .error tooDeep

-- the elements before the first refused one are read
theorem parseElements_refused {value : Str → Except Str (Json F × Str)} {items : List (Json F)}
    (h : ∀ v ∈ items, (Reads value v.dump v ∨ Refuses value v.dump) ∧ StartsValue v.dump)
    (hrefused : ∃ v ∈ items, Refuses value v.dump) (x : Str)
    : ∀ (n : Nat) (data : List (Json F)), items.length ≤ n →
        parseElements value n ((lit ", ").intercalate (items.map Json.dump) ++ 0x5d :: x) data
          = .error tooDeep := by
  have hcomma : lit ", " = [0x2c, 0x20] := by decide
  induction items with
  | nil => simp at hrefused
  | cons v items ih =>
    simp only [List.mem_cons, forall_eq_or_imp] at h
    intro n data hn
    cases n with
    | zero => simp at hn
    | succ n =>
      cases items with
      | nil =>
        have hv : Refuses value v.dump := by simpa using hrefused
        rw [List.map_singleton, List.intercalate_singleton, parseElements,
          hv _ (delimited_bracket x)]
        rfl
      | cons w items =>
        rcases h.2 w (by simp) with ⟨_, c, s, hw, hc, _⟩
        rcases intercalate_cons_head (lit ", ") c s (items.map Json.dump) with ⟨y, hy⟩
        have hrest : (lit ", ").intercalate ((w :: items).map Json.dump) = c :: y := by
          rw [List.map_cons, hw, hy]
        rw [List.map_cons, List.map_cons, List.intercalate_cons_cons, ← List.map_cons, hrest]
        simp only [hcomma, List.append_assoc, List.cons_append, List.nil_append]
        have hdelim := delimited_comma (0x20 :: (c :: (y ++ 0x5d :: x)))
        rcases h.1.1 with hreads | hrefuses
        . rcases hreads _ hdelim with ⟨v', hv', _⟩
          have hlater : ∃ u ∈ w :: items, Refuses value u.dump := by
            rcases hrefused with ⟨u, hu, hrefuses⟩
            rcases List.mem_cons.mp hu with rfl | hu
            . rw [hrefuses _ hdelim] at hv'
              contradiction
            . exact ⟨u, hu, hrefuses⟩
          have hparse := ih h.2 hlater n (data ++ [v']) (by simpa using hn)
          rw [hrest, List.cons_append] at hparse
          rw [parseElements, hv', ok_bind]
          dsimp only
          rw [getNextToken_cons _ (by decide), ok_bind]
          dsimp only
          rw [if_neg (by decide), if_neg (by decide), getNextToken_space _ hc, ok_bind]
          exact hparse
        . rw [parseElements, hrefuses _ hdelim]
          rfl

theorem parseMembers_member_refused {levels : Nat} {k : Str} {v : Json F} {c : UInt8} {s x : Str}
    (hs : Json.dumpField (k, v) ++ c :: x = 0x22 :: s)
    (hv : parseJson F levels (v.dump ++ c :: x) = .error tooDeep) (n : Nat)
    (data : List (Str × Json F))
    : parseMembers (parseJson F levels) (n + 1) 0x22 s data = .error tooDeep := by
  have hcolon : lit ": " = [0x3a, 0x20] := by decide
  rcases parseString_dumpString k (0x3a :: 0x20 :: (v.dump ++ c :: x)) with ⟨t, ht, hk⟩
  have hst : s = t := by
    simpa [Json.dumpField, hcolon, ht] using hs.symm
  rw [hst, parseMembers, if_neg (by decide), hk, ok_bind]
  dsimp only
  rw [getNextToken_cons _ (by decide), ok_bind]
  dsimp only
  rw [if_neg (by decide), parseJson_space _ (by decide), hv]
  rfl

theorem parseMembers_refused {levels : Nat} {fields : List (Str × Json F)}
    (h : ∀ p ∈ fields, Reads (parseJson F levels) p.2.dump p.2
      ∨ Refuses (parseJson F levels) p.2.dump)
    (hrefused : ∃ p ∈ fields, Refuses (parseJson F levels) p.2.dump) (x : Str)
    : ∀ (n : Nat) (data : List (Str × Json F)) (s : Str), fields.length ≤ n →
        (lit ", ").intercalate (fields.map Json.dumpField) ++ 0x7d :: x = 0x22 :: s →
        parseMembers (parseJson F levels) n 0x22 s data = .error tooDeep := by
  have hcomma : lit ", " = [0x2c, 0x20] := by decide
  induction fields with
  | nil => simp at hrefused
  | cons p fields ih =>
    rcases p with ⟨k, v⟩
    simp only [List.mem_cons, forall_eq_or_imp] at h
    intro n data s hn hs
    cases n with
    | zero => simp at hn
    | succ n =>
      cases fields with
      | nil =>
        have hv : Refuses (parseJson F levels) v.dump := by simpa using hrefused
        have hfield : Json.dumpField (k, v) ++ 0x7d :: x = 0x22 :: s := by
          simpa using hs
        exact parseMembers_member_refused hfield (hv _ (delimited_brace x)) n data
      | cons q fields =>
        rcases intercalate_dumpField_head q fields with ⟨t, ht⟩
        generalize hy : t ++ 0x7d :: x = y
        have hrest : (lit ", ").intercalate ((q :: fields).map Json.dumpField) ++ 0x7d :: x
            = 0x22 :: y := by
          rw [ht, List.cons_append, hy]
        have hfield : Json.dumpField (k, v) ++ 0x2c :: 0x20 :: 0x22 :: y = 0x22 :: s := by
          rw [List.map_cons, List.map_cons, List.intercalate_cons_cons, ← List.map_cons] at hs
          simp only [List.append_assoc, hrest] at hs
          simpa [hcomma] using hs
        have hdelim := delimited_comma (0x20 :: 0x22 :: y)
        rcases h.1 with hreads | hrefuses
        . rcases hreads _ hdelim with ⟨v', hv', _⟩
          have hlater : ∃ p ∈ q :: fields, Refuses (parseJson F levels) p.2.dump := by
            rcases hrefused with ⟨p, hp, hrefuses⟩
            rcases List.mem_cons.mp hp with rfl | hp
            . rw [hrefuses _ hdelim] at hv'
              contradiction
            . exact ⟨p, hp, hrefuses⟩
          rw [parseMembers_member hfield (by decide) hv', if_neg (by decide), if_neg (by decide),
            getNextToken_space _ (by decide), ok_bind]
          exact ih h.2 hlater n _ y (by simpa using hn) hrest
        . exact parseMembers_member_refused hfield (hrefuses _ hdelim) n data

theorem array_refused {levels : Nat} {items : List (Json F)}
    (h : ∀ v ∈ items, (Reads (parseJson F levels) v.dump v ∨ Refuses (parseJson F levels) v.dump)
      ∧ StartsValue v.dump)
    (hrefused : ∃ v ∈ items, Refuses (parseJson F levels) v.dump)
    : Refuses (parseJson F (levels + 1)) (Json.array items).dump := by
  intro x _
  have hparse := parseElements_refused h hrefused x
  rw [Json.dump, Json.dumpItems_eq_intercalate]
  simp only [List.cons_append, List.append_assoc, List.nil_append]
  rw [parseJson_bracket]
  cases items with
  | nil => simp at hrefused
  | cons u items =>
    rcases (h u (by simp)).2 with ⟨c, s, hu, hc, hbracket⟩
    have hne : ∀ t ∈ (u :: items).map Json.dump, t ≠ [] := by
      intro t ht
      rcases List.mem_map.mp ht with ⟨v, hv, rfl⟩
      rcases (h v hv).2 with ⟨c, s, hdump, _⟩
      rw [hdump]
      simp
    have hlength := length_le_intercalate (lit ", ") hne
    rcases intercalate_cons_head (lit ", ") c s (items.map Json.dump) with ⟨y, hy⟩
    have hhead : (lit ", ").intercalate ((u :: items).map Json.dump) = c :: y := by
      rw [List.map_cons, hu, hy]
    rw [hhead] at hparse hlength ⊢
    rw [List.cons_append, getNextToken_cons _ hc, ok_bind]
    dsimp only
    rw [if_neg hbracket]
    apply hparse
    simp at hlength ⊢
    omega

theorem object_refused {levels : Nat} {fields : List (Str × Json F)}
    (h : ∀ p ∈ fields, Reads (parseJson F levels) p.2.dump p.2
      ∨ Refuses (parseJson F levels) p.2.dump)
    (hrefused : ∃ p ∈ fields, Refuses (parseJson F levels) p.2.dump)
    : Refuses (parseJson F (levels + 1)) (Json.object fields).dump := by
  intro x _
  have hparse := parseMembers_refused h hrefused x
  rw [Json.dump, Json.dumpFields_eq_intercalate]
  simp only [List.cons_append, List.append_assoc, List.nil_append]
  rw [parseJson_brace]
  cases fields with
  | nil => simp at hrefused
  | cons p fields =>
    have hne : ∀ t ∈ (p :: fields).map Json.dumpField, t ≠ [] := by
      intro t ht
      rcases List.mem_map.mp ht with ⟨q, _, rfl⟩
      simp [Json.dumpField, dumpString]
    have hlength := length_le_intercalate (lit ", ") hne
    rcases intercalate_dumpField_head p fields with ⟨y, hhead⟩
    rw [hhead, List.cons_append, getNextToken_cons _ (by decide), ok_bind]
    dsimp only
    rw [if_neg (by decide)]
    rw [hhead] at hlength
    apply hparse
    . simp at hlength ⊢
      omega
    . rw [hhead, List.cons_append]

theorem refuses_dump (hF : F.Lawful) (v : Json F)
    : ∀ levels, v.Canonical → v.Finite → levels ≤ v.nesting →
        Refuses (parseJson F levels) v.dump := by
  induction v using Json.induction with
  | null
  | bool value
  | int value
  | double value
  | string value =>
    intro levels _ _ hlevels x _
    rw [Nat.le_zero.mp hlevels]
    rfl
  | array items ih =>
    intro levels hcanonical hfinite hlevels x hx
    cases levels with
    | zero => rfl
    | succ levels =>
      rw [Json.Canonical, Json.canonicalItems_iff] at hcanonical
      rw [Json.Finite, Json.finiteItems_iff] at hfinite
      have hdeep : ¬∀ v ∈ items, v.nesting < levels := by
        rw [← Json.nestingItems_le_iff]
        rw [Json.nesting] at hlevels
        omega
      push Not at hdeep
      rcases hdeep with ⟨w, hw, hdeep⟩
      have hitems : ∀ v ∈ items, (Reads (parseJson F levels) v.dump v
          ∨ Refuses (parseJson F levels) v.dump) ∧ StartsValue v.dump := by
        intro v hv
        refine ⟨?_, startsValue_dump hF (hcanonical v hv) (hfinite v hv)⟩
        rcases Nat.lt_or_ge v.nesting levels with hlt | hge
        . exact .inl (reads_dump hF v levels (hcanonical v hv) (hfinite v hv) hlt)
        . exact .inr (ih v hv levels (hcanonical v hv) (hfinite v hv) hge)
      have hrefused : ∃ v ∈ items, Refuses (parseJson F levels) v.dump :=
        ⟨w, hw, ih w hw levels (hcanonical w hw) (hfinite w hw) hdeep⟩
      exact array_refused hitems hrefused x hx
  | object fields ih =>
    intro levels hcanonical hfinite hlevels x hx
    cases levels with
    | zero => rfl
    | succ levels =>
      rw [Json.Canonical, Json.canonicalFields_iff] at hcanonical
      rw [Json.Finite, Json.finiteFields_iff] at hfinite
      have hdeep : ¬∀ p ∈ fields, p.2.nesting < levels := by
        rw [← Json.nestingFields_le_iff]
        rw [Json.nesting] at hlevels
        omega
      push Not at hdeep
      rcases hdeep with ⟨q, hq, hdeep⟩
      have hfields : ∀ p ∈ fields, Reads (parseJson F levels) p.2.dump p.2
          ∨ Refuses (parseJson F levels) p.2.dump := by
        intro p hp
        rcases Nat.lt_or_ge p.2.nesting levels with hlt | hge
        . exact .inl (reads_dump hF p.2 levels (hcanonical.2 p hp) (hfinite p hp) hlt)
        . exact .inr (ih p hp levels (hcanonical.2 p hp) (hfinite p hp) hge)
      have hrefused : ∃ p ∈ fields, Refuses (parseJson F levels) p.2.dump :=
        ⟨q, hq, ih q hq levels (hcanonical.2 q hq) (hfinite q hq) hdeep⟩
      exact object_refused hfields hrefused x hx

/-! ## The text of a value -/

structure RoundTrip (v : Json F) : Prop where
  reads : v.nesting ≤ maxDepth → (parse F v.dump).2 = []
    ∧ Json.equals (parse F v.dump).1 v.nulled = true
  refuses : maxDepth < v.nesting → parse F v.dump = (.null, tooDeep)

theorem parse_dump (hF : F.Lawful) {v : Json F} (h : v.Canonical) : RoundTrip v where
  reads := by
    intro hnesting
    rw [← Json.nesting_nulled] at hnesting
    have hreads := reads_dump hF v.nulled (maxDepth + 1) (Json.canonical_nulled h)
      (Json.finite_nulled v) (by omega)
    rcases hreads [] delimited_nil with ⟨v', hv', hequal⟩
    rw [List.append_nil, Json.dump_nulled] at hv'
    simp only [parse, parseText_of_parseJson hv']
    exact ⟨trivial, hequal⟩
  refuses := by
    intro hnesting
    rw [← Json.nesting_nulled] at hnesting
    have hrefuses := refuses_dump hF v.nulled (maxDepth + 1) (Json.canonical_nulled h)
      (Json.finite_nulled v) hnesting
    have herror := hrefuses [] delimited_nil
    rw [List.append_nil, Json.dump_nulled] at herror
    simp only [parse, parseText, herror]
    rfl

theorem parse_dump_nested
    : RoundTrip (.array [.object [(lit "a", .null)], .string (lit "b")] : Json Double.integers) := by
  apply parse_dump Double.integers_lawful
  simp [Json.Canonical, Json.CanonicalItems, Json.CanonicalFields, Json.keys]

end Json11
