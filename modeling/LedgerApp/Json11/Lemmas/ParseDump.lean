import LedgerApp.Json11.Lemmas.Reads

/-!
`parse` inverts `dump` up to `operator==`, on every finite value the parser can have built and at
every depth of nesting that leaves room for the value.
-/

namespace Json11

open Bytes Outcome

variable {F : Double}

theorem parseJson_space {c : UInt8} (levels : Nat) (hc : isSpace c = true) (s : Str)
    : parseJson F levels (c :: s) = parseJson F levels s := by
  cases levels with
  | zero => rfl
  | succ levels =>
    have hspace : ∀ a ∈ [c], isSpace a = true := by
      simp [hc]
    have : getNextToken (c :: s) = getNextToken s := getNextToken_spaces hspace s
    rw [parseJson, this, ← parseJson]

theorem parseString_dumpString (k : Str) (x : Str)
    : ∃ s, dumpString k ++ x = 0x22 :: s ∧ parseString [] none s = .ok (k, x) := by
  refine ⟨dumpChars k ++ 0x22 :: x, by simp [dumpString], ?_⟩
  rw [parseString_dumpChars]
  simp [encodeUtf8]

theorem parseMembers_member {levels : Nat} {k : Str} {v v' : Json F} {c : UInt8} {s x : Str}
    (hs : Json.dumpField (k, v) ++ c :: x = 0x22 :: s) (hc : isSpace c = false)
    (hv : parseJson F levels (v.dump ++ c :: x) = .ok (v', c :: x)) (n : Nat)
    (data : List (Str × Json F))
    : parseMembers (parseJson F levels) (n + 1) 0x22 s data
        = if c = 0x7d then
            return (.object (Json.insert k v' data), x)
          else if c ≠ 0x2c then
            throw (lit "expected ',' in object, got " ++ esc c)
          else (do
            let (ch, s) ← getNextToken x
            parseMembers (parseJson F levels) n ch s (Json.insert k v' data)) := by
  have hcolon : lit ": " = [0x3a, 0x20] := by decide
  rcases parseString_dumpString k (0x3a :: 0x20 :: (v.dump ++ c :: x)) with ⟨t, ht, hk⟩
  have hst : s = t := by
    simpa [Json.dumpField, hcolon, ht] using hs.symm
  rw [hst, parseMembers, if_neg (by decide), hk, ok_bind]
  dsimp only
  rw [getNextToken_cons _ (by decide), ok_bind]
  dsimp only
  rw [if_neg (by decide), parseJson_space _ (by decide), hv, ok_bind]
  dsimp only
  rw [getNextToken_cons _ hc, ok_bind]

theorem getNextToken_space {c : UInt8} (x : Str) (hc : isSpace c = false)
    : getNextToken (0x20 :: c :: x) = .ok (c, x) := by
  have hspace : ∀ a ∈ [(0x20 : UInt8)], isSpace a = true := List.forall_mem_singleton.mpr rfl
  have := getNextToken_spaces hspace (c :: x)
  rw [getNextToken_cons _ hc] at this
  exact this

-- the text of fields starts with the quote of the first key
theorem intercalate_dumpField_head (p : Str × Json F) (fields : List (Str × Json F))
    : ∃ y, (lit ", ").intercalate ((p :: fields).map Json.dumpField) = 0x22 :: y := by
  rcases intercalate_cons_head (lit ", ") 0x22 (dumpChars p.1 ++ 0x22 :: (lit ": " ++ p.2.dump))
    (fields.map Json.dumpField) with ⟨y, hy⟩
  refine ⟨y, ?_⟩
  rw [← hy]
  simp [Json.dumpField, dumpString]

theorem parseMembers_intercalate {levels : Nat} {fields : List (Str × Json F)}
    (hsorted : (Json.keys fields).Pairwise (· < ·)) (hne : fields ≠ [])
    (h : ∀ p ∈ fields, Reads (parseJson F levels) p.2.dump p.2) (x : Str)
    : ∀ (n : Nat) (data : List (Str × Json F)) (s : Str), fields.length ≤ n →
        (∀ k ∈ Json.keys data, ∀ l ∈ Json.keys fields, k < l) →
        (lit ", ").intercalate (fields.map Json.dumpField) ++ 0x7d :: x = 0x22 :: s →
        ∃ fields', parseMembers (parseJson F levels) n 0x22 s data
              = .ok (.object (data ++ fields'), x)
            ∧ List.Forall₂ (fun p' p => p'.1 = p.1 ∧ Json.equals p'.2 p.2 = true)
                fields' fields := by
  have hcomma : lit ", " = [0x2c, 0x20] := by decide
  induction fields with
  | nil => contradiction
  | cons p fields ih =>
    rcases p with ⟨k, v⟩
    intro n data s hn hdata hs
    simp only [Json.keys, List.map_cons, List.pairwise_cons, List.mem_cons, forall_eq_or_imp]
      at hsorted hdata h ih
    have hinsert : ∀ v', Json.insert k v' data = data ++ [(k, v')] := by
      intro v'
      apply Json.insert_eq_append
      intro l hl
      exact (hdata l hl).1
    cases n with
    | zero => simp at hn
    | succ n =>
      cases fields with
      | nil =>
        rcases h.1 (0x7d :: x) (delimited_brace x) with ⟨v', hv, heq⟩
        have hfield : Json.dumpField (k, v) ++ 0x7d :: x = 0x22 :: s := by
          simpa using hs
        refine ⟨[(k, v')], ?_, .cons ⟨rfl, heq⟩ .nil⟩
        rw [parseMembers_member hfield (by decide) hv, if_pos rfl, hinsert]
        rfl
      | cons q fields =>
        rcases intercalate_dumpField_head q fields with ⟨t, ht⟩
        generalize hy : t ++ 0x7d :: x = y
        have hrest : (lit ", ").intercalate ((q :: fields).map Json.dumpField) ++ 0x7d :: x
            = 0x22 :: y := by
          rw [ht, List.cons_append, hy]
        rcases h.1 (0x2c :: 0x20 :: 0x22 :: y) (delimited_comma _) with ⟨v', hv, heq⟩
        have hfield : Json.dumpField (k, v) ++ 0x2c :: 0x20 :: 0x22 :: y = 0x22 :: s := by
          rw [List.map_cons, List.map_cons, List.intercalate_cons_cons, ← List.map_cons] at hs
          simp only [List.append_assoc, hrest] at hs
          simpa [hcomma] using hs
        have hdata' : ∀ a ∈ (data ++ [(k, v')]).map Prod.fst,
            ∀ b ∈ (q :: fields).map Prod.fst, a < b := by
          intro a ha b hb
          simp only [List.map_append, List.map_cons, List.map_nil, List.mem_append,
            List.mem_singleton] at ha
          rcases ha with ha | ha
          . exact (hdata a ha).2 b hb
          . rw [ha]
            exact hsorted.1 b hb
        rcases ih hsorted.2 (by simp) h.2 n (data ++ [(k, v')]) y (by simpa using hn) hdata' hrest
          with ⟨fields', hfields, hequal⟩
        refine ⟨(k, v') :: fields', ?_, .cons ⟨rfl, heq⟩ hequal⟩
        rw [parseMembers_member hfield (by decide) hv, if_neg (by decide), if_neg (by decide),
          getNextToken_space _ (by decide), ok_bind]
        dsimp only
        rw [hinsert]
        simpa using hfields

theorem parseJson_brace (levels : Nat) (s : Str) : parseJson F (levels + 1) (0x7b :: s)
    = (do
        let (ch, s) ← getNextToken s
        if ch = 0x7d then
          return (.object [], s)
        else
          parseMembers (parseJson F levels) (s.length + 1) ch s []) := by
  rw [parseJson, getNextToken_cons _ (by decide), ok_bind]
  dsimp only
  rw [if_neg (by decide), if_neg (by decide), if_neg (by decide), if_neg (by decide),
    if_neg (by decide), if_pos (by rfl)]

theorem parseJson_object {levels : Nat} {fields : List (Str × Json F)}
    (hsorted : (Json.keys fields).Pairwise (· < ·))
    (h : ∀ p ∈ fields, Reads (parseJson F levels) p.2.dump p.2) (x : Str)
    : ∃ fields', parseJson F (levels + 1) ((Json.object fields).dump ++ x)
          = .ok (.object fields', x)
        ∧ List.Forall₂ (fun p' p => p'.1 = p.1 ∧ Json.equals p'.2 p.2 = true) fields' fields := by
  rw [Json.dump, Json.dumpFields_eq_intercalate]
  simp only [List.cons_append, List.append_assoc, List.nil_append]
  rw [parseJson_brace]
  cases fields with
  | nil =>
    refine ⟨[], ?_, .nil⟩
    rw [List.map_nil, List.intercalate_nil, List.nil_append, getNextToken_cons _ (by decide),
      ok_bind]
    rfl
  | cons p fields =>
    have hne : ∀ t ∈ (p :: fields).map Json.dumpField, t ≠ [] := by
      intro t ht
      simp only [List.mem_map] at ht
      rcases ht with ⟨q, _, rfl⟩
      simp [Json.dumpField, dumpString]
    have hlen := length_le_intercalate (lit ", ") hne
    rcases intercalate_dumpField_head p fields with ⟨y, hhead⟩
    rw [hhead, List.cons_append, getNextToken_cons _ (by decide), ok_bind]
    dsimp only
    rw [if_neg (by decide)]
    rw [hhead] at hlen
    apply parseMembers_intercalate hsorted (by simp) h x
    . simp at hlen ⊢
      omega
    . simp [Json.keys]
    . rw [hhead, List.cons_append]

theorem startsValue_of_parseNumber {s r : Str} {v : Json F} (h : parseNumber F s = .ok (v, r))
    : StartsValue s := by
  have hpeek := peek_of_parseNumber h
  cases s with
  | nil => simp [isDigit, inRange] at hpeek
  | cons c s =>
    refine ⟨c, s, rfl, ?_, ?_⟩
    . simp only [peek_cons, isDigit, inRange] at hpeek
      simp only [isSpace]
      grind
    . simp only [peek_cons, isDigit, inRange] at hpeek
      grind

theorem parseJson_number {s r : Str} {v : Json F} (levels : Nat)
    (h : parseNumber F s = .ok (v, r)) : parseJson F (levels + 1) s = .ok (v, r) := by
  have hpeek := peek_of_parseNumber h
  rcases startsValue_of_parseNumber h with ⟨c, t, rfl, hc, _⟩
  rw [parseJson, getNextToken_cons _ hc, ok_bind]
  dsimp only
  rw [peek_cons] at hpeek
  rw [if_pos hpeek, h]

theorem parseNumber_dump_double (hF : F.Lawful) {value : F.Val} (h : F.isfinite value = true)
    : ∃ v, parseNumber F (Json.double value).dump = .ok (v, [])
        ∧ Json.equals v (.double value) = true := by
  rw [Json.dump, if_pos h]
  exact hF.parse_snprintf value h

theorem parseNumber_dump_int {value : Int} (h : (Json.int value : Json F).Canonical)
    : parseNumber F (Json.int value : Json F).dump = .ok (.int value, []) := by
  have := parseNumber_decimal F h delimited_nil
  rw [List.append_nil] at this
  exact this

theorem startsValue_dump (hF : F.Lawful) {v : Json F} (hcanonical : v.Canonical)
    (hfinite : v.Finite) : StartsValue v.dump := by
  cases v with
  | null =>
    have : lit "null" = 0x6e :: lit "ull" := by decide
    exact ⟨_, _, this, by decide, by decide⟩
  | bool value =>
    cases value with
    | true =>
      have : lit "true" = 0x74 :: lit "rue" := by decide
      exact ⟨_, _, this, by decide, by decide⟩
    | false =>
      have : lit "false" = 0x66 :: lit "alse" := by decide
      exact ⟨_, _, this, by decide, by decide⟩
  | int value => exact startsValue_of_parseNumber (parseNumber_dump_int hcanonical)
  | double value =>
    rcases parseNumber_dump_double hF hfinite with ⟨w, hw, _⟩
    exact startsValue_of_parseNumber hw
  | string value => exact ⟨0x22, _, rfl, by decide, by decide⟩
  | array items => exact ⟨0x5b, _, rfl, by decide, by decide⟩
  | object fields => exact ⟨0x7b, _, rfl, by decide, by decide⟩

theorem reads_of_parseNumber {t : Str} {v w : Json F} (levels : Nat)
    (h : parseNumber F t = .ok (w, [])) (heq : Json.equals w v = true)
    : Reads (parseJson F (levels + 1)) t v := by
  intro x hx
  refine ⟨w, ?_, heq⟩
  have := parseNumber_append_right hx h
  exact parseJson_number levels this

theorem expect_append (expected : Str) (res : Json F) (x : Str)
    : expect expected res (expected ++ x) = .ok (res, x) := by
  simp [expect]

theorem parseJson_null (levels : Nat) (x : Str)
    : parseJson F (levels + 1) ((Json.null : Json F).dump ++ x) = .ok (.null, x) := by
  have hw : lit "null" = 0x6e :: lit "ull" := by decide
  have hexpect := expect_append (lit "null") (Json.null : Json F) x
  rw [Json.dump]
  rw [hw, List.cons_append] at hexpect ⊢
  rw [parseJson, getNextToken_cons _ (by decide), ok_bind]
  dsimp only
  rw [if_neg (by decide), if_neg (by decide), if_neg (by decide), if_pos (by rfl), hw, hexpect]

theorem parseJson_bool (levels : Nat) (value : Bool) (x : Str)
    : parseJson F (levels + 1) ((Json.bool value : Json F).dump ++ x) = .ok (.bool value, x) := by
  cases value with
  | true =>
    have hw : lit "true" = 0x74 :: lit "rue" := by decide
    have hexpect := expect_append (lit "true") (Json.bool true : Json F) x
    rw [Json.dump, if_pos rfl]
    rw [hw, List.cons_append] at hexpect ⊢
    rw [parseJson, getNextToken_cons _ (by decide), ok_bind]
    dsimp only
    rw [if_neg (by decide), if_pos (by rfl), hw, hexpect]
  | false =>
    have hw : lit "false" = 0x66 :: lit "alse" := by decide
    have hexpect := expect_append (lit "false") (Json.bool false : Json F) x
    rw [Json.dump, if_neg (by decide)]
    rw [hw, List.cons_append] at hexpect ⊢
    rw [parseJson, getNextToken_cons _ (by decide), ok_bind]
    dsimp only
    rw [if_neg (by decide), if_neg (by decide), if_pos (by rfl), hw, hexpect]

theorem parseJson_string (levels : Nat) (value : Str) (x : Str)
    : parseJson F (levels + 1) ((Json.string value : Json F).dump ++ x)
        = .ok (.string value, x) := by
  rcases parseString_dumpString value x with ⟨s, hs, hvalue⟩
  rw [Json.dump, hs, parseJson, getNextToken_cons _ (by decide), ok_bind]
  dsimp only
  rw [if_neg (by decide), if_neg (by decide), if_neg (by decide), if_neg (by decide),
    if_pos (by rfl), hvalue]
  rfl

theorem isSeparator_comma_space : IsSeparator (lit ", ") := by
  exact ⟨[0x20], by decide, List.forall_mem_singleton.mpr rfl⟩

theorem parseJson_dump (hF : F.Lawful) (v : Json F)
    : ∀ levels, v.Canonical → v.Finite → v.depth < levels →
        Reads (parseJson F levels) v.dump v := by
  induction v using Json.induction with
  | null =>
    intro levels _ _ hlevels x _
    cases levels with
    | zero => contradiction
    | succ levels => exact ⟨_, parseJson_null levels x, by simp [Json.equals]⟩
  | bool value =>
    intro levels _ _ hlevels x _
    cases levels with
    | zero => contradiction
    | succ levels => exact ⟨_, parseJson_bool levels value x, by simp [Json.equals]⟩
  | int value =>
    intro levels hcanonical _ hlevels
    cases levels with
    | zero => contradiction
    | succ levels =>
      apply reads_of_parseNumber levels (parseNumber_dump_int hcanonical)
      exact hF.eq_ofInt value
  | double value =>
    intro levels _ hfinite hlevels
    cases levels with
    | zero => contradiction
    | succ levels =>
      rcases parseNumber_dump_double hF hfinite with ⟨w, hw, heq⟩
      exact reads_of_parseNumber levels hw heq
  | string value =>
    intro levels _ _ hlevels x _
    cases levels with
    | zero => contradiction
    | succ levels => exact ⟨_, parseJson_string levels value x, by simp [Json.equals]⟩
  | array items ih =>
    intro levels hcanonical hfinite hlevels x _
    cases levels with
    | zero => contradiction
    | succ levels =>
      rw [Json.Canonical, Json.canonicalItems_iff] at hcanonical
      rw [Json.Finite, Json.finiteItems_iff] at hfinite
      rw [Json.depth] at hlevels
      have hitems : List.Forall₂ (fun t v => Reads (parseJson F levels) t v ∧ StartsValue t)
          (items.map Json.dump) items := by
        rw [List.forall₂_map_left_iff, List.forall₂_same]
        intro v hv
        refine ⟨?_, startsValue_dump hF (hcanonical v hv) (hfinite v hv)⟩
        apply ih v hv levels (hcanonical v hv) (hfinite v hv)
        have := Json.depthItems_le_iff.mp le_rfl v hv
        omega
      rcases parseJson_array isSeparator_comma_space hitems x with ⟨items', hparse, hequal⟩
      refine ⟨.array items', ?_, ?_⟩
      . rw [Json.dump, Json.dumpItems_eq_intercalate]
        simpa using hparse
      . rw [Json.equals, Json.equalItems_iff]
        exact hequal
  | object fields ih =>
    intro levels hcanonical hfinite hlevels x _
    cases levels with
    | zero => contradiction
    | succ levels =>
      rw [Json.Canonical, Json.canonicalFields_iff] at hcanonical
      rw [Json.Finite, Json.finiteFields_iff] at hfinite
      rw [Json.depth] at hlevels
      have hfields : ∀ p ∈ fields, Reads (parseJson F levels) p.2.dump p.2 := by
        intro p hp
        apply ih p hp levels (hcanonical.2 p hp) (hfinite p hp)
        have := Json.depthFields_le_iff.mp le_rfl p hp
        omega
      rcases parseJson_object hcanonical.1 hfields x with ⟨fields', hparse, hequal⟩
      refine ⟨.object fields', hparse, ?_⟩
      rw [Json.equals, Json.equalFields_iff]
      exact hequal

theorem parseText_of_parseJson {str : Str} {v : Json F}
    (h : parseJson F (maxDepth + 1) str = .ok (v, [])) : parseText F str = .ok v := by
  unfold parseText
  rw [h, ok_bind]
  rfl

theorem parseText_dump (hF : F.Lawful) {v : Json F} (hcanonical : v.Canonical)
    (hfinite : v.Finite) (hdepth : v.depth ≤ maxDepth)
    : ∃ v', parseText F v.dump = .ok v' ∧ Json.equals v' v = true := by
  have hreads := parseJson_dump hF v (maxDepth + 1) hcanonical hfinite (by omega)
  rcases hreads [] delimited_nil with ⟨v', hv, heq⟩
  rw [List.append_nil] at hv
  exact ⟨v', parseText_of_parseJson hv, heq⟩

theorem parseText_joined (hF : F.Lawful) {items : List (Json F)}
    (h : ∀ v ∈ items, v.Canonical ∧ v.Finite ∧ v.depth < maxDepth)
    : ∃ items', parseText F (0x5b :: [0x2c].intercalate (items.map Json.dump) ++ [0x5d])
          = .ok (.array items')
        ∧ List.Forall₂ (fun v' v => Json.equals v' v = true) items' items := by
  have hsep : IsSeparator [0x2c] := by
    refine ⟨[], rfl, ?_⟩
    simp
  have hitems : List.Forall₂ (fun t v => Reads (parseJson F maxDepth) t v ∧ StartsValue t)
      (items.map Json.dump) items := by
    rw [List.forall₂_map_left_iff, List.forall₂_same]
    intro v hv
    have := h v hv
    refine ⟨?_, startsValue_dump hF this.1 this.2.1⟩
    exact parseJson_dump hF v maxDepth this.1 this.2.1 this.2.2
  rcases parseJson_array hsep hitems [] with ⟨items', hparse, hequal⟩
  exact ⟨items', parseText_of_parseJson hparse, hequal⟩

end Json11
