import LedgerApp.Json11.Lemmas.Tokens

/-!
The parser against the grammar: it accepts exactly the texts that are nested at most `max_depth`
deep, and returns what they denote.
-/

namespace Json11

open Bytes Outcome

variable {F : Double}

/-! ## White space -/

theorem white_nil : White [] := by
  simp [White]

theorem split_of_getNextToken {s r : Str} {c : UInt8} (h : getNextToken s = .ok (c, r))
    : ∃ before, White before ∧ s = before ++ c :: r ∧ isSpace c = false := by
  rw [getNextToken_eq_ok, consumeWhitespace] at h
  refine ⟨s.takeWhile isSpace, fun a ha => List.mem_takeWhile_imp ha, ?_, ?_⟩
  . rw [← h, List.takeWhile_append_dropWhile]
  . have hhead := List.head?_dropWhile_not isSpace s
    rw [h] at hhead
    simpa using hhead

theorem getNextToken_white {white : Str} (hwhite : White white) {c : UInt8} (hc : isSpace c = false)
    (s : Str) : getNextToken (white ++ c :: s) = .ok (c, s) := by
  rw [getNextToken_spaces hwhite, getNextToken_cons _ hc]

theorem parseJson_white {white : Str} (hwhite : White white) (levels : Nat) (s : Str)
    : parseJson F levels (white ++ s) = parseJson F levels s := by
  induction white with
  | nil => rfl
  | cons c white ih =>
    rw [White, List.forall_mem_cons] at hwhite
    rw [List.cons_append, parseJson_space levels hwhite.1, ih hwhite.2]

theorem delimited_space {c : UInt8} (hc : isSpace c = true) (x : Str) : Delimited (c :: x) := by
  simp only [isSpace, Bool.or_eq_true, beq_iff_eq] at hc
  rcases hc with ((rfl | rfl) | rfl) | rfl
  all_goals simp [Delimited, isDigit, inRange]

theorem delimited_white {white x : Str} (hwhite : White white) (hx : Delimited x)
    : Delimited (white ++ x) := by
  cases white with
  | nil => exact hx
  | cons c white => exact delimited_space (hwhite c (by simp)) _

theorem intercalate_map_cons {α : Type} (f : α → Str) (c : UInt8) (a : α) (as : List α)
    : [c].intercalate ((a :: as).map f) = f a ++ as.flatMap fun a => c :: f a := by
  induction as generalizing a with
  | nil => simp
  | cons b as ih =>
    rw [List.map_cons, List.map_cons, List.intercalate_cons_cons, ← List.map_cons, ih]
    simp

/-! ## What is accepted -/

theorem startsValue_of_denotes {levels : Nat} {text : Str} {v : Json F}
    (h : Denotes F levels text v) : StartsValue text := by
  cases h with
  | null => exact ⟨0x6e, lit "ull", rfl, rfl, by decide⟩
  | true => exact ⟨0x74, lit "rue", rfl, rfl, by decide⟩
  | false => exact ⟨0x66, lit "alse", rfl, rfl, by decide⟩
  | @number _ number h =>
    have hread := parseNumber_text (F := F) h delimited_nil
    rw [List.append_nil] at hread
    exact startsValue_of_parseNumber hread
  | string h => exact ⟨0x22, _, rfl, rfl, by decide⟩
  | emptyArray h => exact ⟨0x5b, _, rfl, rfl, by decide⟩
  | array hne h hvalue => exact ⟨0x5b, _, rfl, rfl, by decide⟩
  | emptyObject h => exact ⟨0x7b, _, rfl, rfl, by decide⟩
  | object hne h hvalue => exact ⟨0x7b, _, rfl, rfl, by decide⟩

-- a text that is read as `v`, whatever delimits it
def ReadAs (value : Str → Except Str (Json F × Str)) (text : Str) (v : Json F) : Prop :=
  StartsValue text ∧ ∀ x, Delimited x → value (text ++ x) = .ok (v, x)

section

variable {value : Str → Except Str (Json F × Str)}

theorem delimited_elements (elements : List (Element F)) (x : Str)
    : Delimited ((elements.flatMap fun element => 0x2c :: element.padded) ++ 0x5d :: x) := by
  cases elements with
  | nil => exact delimited_bracket x
  | cons element elements => exact delimited_comma _

theorem delimited_members (members : List (Member F)) (x : Str)
    : Delimited ((members.flatMap fun member => 0x2c :: member.padded) ++ 0x7d :: x) := by
  cases members with
  | nil => exact delimited_brace x
  | cons member members => exact delimited_comma _

theorem parseElements_padded (x : Str) (elements : List (Element F))
    : ∀ (element : Element F) (n : Nat) (data : List (Json F)),
        (∀ e ∈ element :: elements, e.Valid ∧ ReadAs value e.text e.value) → elements.length < n →
        parseElements value n (element.text ++ (element.after ++
            ((elements.flatMap fun e => 0x2c :: e.padded) ++ 0x5d :: x))) data
          = .ok (.array (data ++ (element :: elements).map (·.value)), x) := by
  induction elements with
  | nil =>
    intro element n data h hn
    rw [List.forall_mem_cons] at h
    cases n with
    | zero => contradiction
    | succ n =>
      unfold parseElements
      rw [h.1.2.2 _ (delimited_white h.1.1.after (delimited_elements [] x)), ok_bind]
      dsimp only
      rw [List.flatMap_nil, List.nil_append, getNextToken_white h.1.1.after (by decide), ok_bind]
      rfl
  | cons next elements ih =>
    intro element n data h hn
    cases n with
    | zero => contradiction
    | succ n =>
      rw [List.forall_mem_cons] at h
      have hnext := h.2 next (by simp)
      rcases hnext.2.1 with ⟨c, s, hs, hc, _⟩
      unfold parseElements
      rw [h.1.2.2 _ (delimited_white h.1.1.after (delimited_elements _ x)), ok_bind]
      dsimp only
      rw [List.flatMap_cons, List.cons_append, List.cons_append,
        getNextToken_white h.1.1.after (by decide), ok_bind]
      dsimp only
      rw [if_neg (by decide), if_neg (by decide), Element.padded, List.append_assoc,
        List.append_assoc, List.append_assoc, hs, List.cons_append,
        getNextToken_white hnext.1.before hc, ok_bind]
      dsimp only
      rw [← List.cons_append, ← hs, ih next n _ h.2 (by simpa using hn)]
      simp

theorem member_text (member : Member F) (s : Str)
    : member.padded ++ s = member.before ++ 0x22 :: (unitsText member.key ++ 0x22 ::
        (member.afterKey ++ 0x3a ::
          (member.beforeValue ++ (member.text ++ (member.after ++ s))))) := by
  simp [Member.padded, quoted]

theorem parseMembers_padded (hwhite : ∀ white, White white → ∀ s, value (white ++ s) = value s)
    (x : Str) (members : List (Member F))
    : ∀ (member : Member F) (n : Nat) (data : List (Str × Json F)),
        (∀ m ∈ member :: members, m.Valid ∧ ReadAs value m.text m.value) → members.length < n →
        parseMembers value n 0x22 (unitsText member.key ++ 0x22 :: (member.afterKey ++ 0x3a ::
            (member.beforeValue ++ (member.text ++ (member.after ++
              ((members.flatMap fun m => 0x2c :: m.padded) ++ 0x7d :: x)))))) data
          = .ok (.object ((member :: members).foldl
              (fun fields m => Json.insert (decode m.key) m.value fields) data), x) := by
  induction members with
  | nil =>
    intro member n data h hn
    rw [List.forall_mem_cons] at h
    cases n with
    | zero => contradiction
    | succ n =>
      unfold parseMembers
      rw [if_neg (by decide), parseString_units h.1.1.key, ok_bind]
      dsimp only
      rw [getNextToken_white h.1.1.afterKey (by decide), ok_bind]
      dsimp only
      rw [if_neg (by decide), hwhite _ h.1.1.beforeValue,
        h.1.2.2 _ (delimited_white h.1.1.after (delimited_members [] x)), ok_bind]
      dsimp only
      rw [List.flatMap_nil, List.nil_append, getNextToken_white h.1.1.after (by decide), ok_bind]
      rfl
  | cons next members ih =>
    intro member n data h hn
    cases n with
    | zero => contradiction
    | succ n =>
      rw [List.forall_mem_cons] at h
      have hnext := h.2 next (by simp)
      unfold parseMembers
      rw [if_neg (by decide), parseString_units h.1.1.key, ok_bind]
      dsimp only
      rw [getNextToken_white h.1.1.afterKey (by decide), ok_bind]
      dsimp only
      rw [if_neg (by decide), hwhite _ h.1.1.beforeValue,
        h.1.2.2 _ (delimited_white h.1.1.after (delimited_members _ x)), ok_bind]
      dsimp only
      rw [List.flatMap_cons, List.cons_append, List.cons_append,
        getNextToken_white h.1.1.after (by decide), ok_bind]
      dsimp only
      rw [if_neg (by decide), if_neg (by decide), List.append_assoc, member_text,
        getNextToken_white hnext.1.before (by decide), ok_bind]
      dsimp only
      rw [ih next n _ h.2 (by simpa using hn)]
      rfl

end

theorem length_le_flatMap {α : Type} (f : α → Str) (as : List α)
    : as.length ≤ (as.flatMap fun a => 0x2c :: f a).length := by
  induction as with
  | nil => simp
  | cons a as ih =>
    simp only [List.length_cons, List.flatMap_cons, List.length_append]
    omega

theorem parseJson_quote (levels : Nat) {units : List StringUnit} (h : ∀ unit ∈ units, unit.Valid)
    (x : Str) : parseJson F (levels + 1) (quoted units ++ x) = .ok (.string (decode units), x) := by
  rw [quoted, List.append_assoc, List.cons_append, List.singleton_append, parseJson,
    getNextToken_cons _ (by decide), ok_bind]
  dsimp only
  rw [if_neg (by decide), if_neg (by decide), if_neg (by decide), if_neg (by decide),
    if_pos (by rfl), parseString_units h, ok_bind]
  rfl

theorem parseJson_padded_array {levels : Nat} {elements : List (Element F)} (hne : elements ≠ [])
    (h : ∀ e ∈ elements, e.Valid ∧ ReadAs (parseJson F levels) e.text e.value) (x : Str)
    : parseJson F (levels + 1)
        (0x5b :: [0x2c].intercalate (elements.map Element.padded) ++ [0x5d] ++ x)
          = .ok (.array (elements.map (·.value)), x) := by
  cases elements with
  | nil => contradiction
  | cons element elements =>
    rcases h element (by simp) with ⟨hvalid, ⟨c, s, hs, hc, hbracket⟩, _⟩
    have hlen := length_le_flatMap Element.padded elements
    rw [intercalate_map_cons, List.append_assoc, List.cons_append, List.singleton_append,
      parseJson_bracket, Element.padded, List.append_assoc, List.append_assoc, List.append_assoc, hs,
      List.cons_append, getNextToken_white hvalid.before hc, ok_bind]
    dsimp only
    rw [if_neg hbracket, ← List.cons_append, ← hs, parseElements_padded x elements element _ _ h]
    . rfl
    . simp only [List.length_append]
      omega

theorem parseJson_padded_object {levels : Nat} {members : List (Member F)} (hne : members ≠ [])
    (h : ∀ m ∈ members, m.Valid ∧ ReadAs (parseJson F levels) m.text m.value) (x : Str)
    : parseJson F (levels + 1)
        (0x7b :: [0x2c].intercalate (members.map Member.padded) ++ [0x7d] ++ x)
          = .ok (.object (fieldsOf members), x) := by
  cases members with
  | nil => contradiction
  | cons member members =>
    have hvalid := (h member (by simp)).1
    have hlen := length_le_flatMap Member.padded members
    rw [intercalate_map_cons, List.append_assoc, List.cons_append, List.singleton_append,
      parseJson_brace, List.append_assoc, member_text, getNextToken_white hvalid.before (by decide),
      ok_bind]
    dsimp only
    rw [if_neg (by decide), parseMembers_padded (fun _ hwhite => parseJson_white hwhite levels)
      x members member _ _ h]
    . rfl
    . simp only [List.length_append, List.length_cons]
      omega

-- only a number can go on in what follows it, and its last byte is a digit
def EndsInDigit (s : Str) : Prop :=
  ∃ c, s.getLast? = some c ∧ isDigit c = true

theorem EndsInDigit.append {t : Str} (h : EndsInDigit t) (s : Str) : EndsInDigit (s ++ t) := by
  rcases h with ⟨c, hlast, hc⟩
  refine ⟨c, ?_, hc⟩
  rw [List.getLast?_append, hlast]
  rfl

theorem endsInDigit_digits {s : Str} (hne : s ≠ []) (h : AllDigits s) : EndsInDigit s :=
  ⟨s.getLast hne, List.getLast?_eq_some_getLast hne, h _ (List.getLast_mem hne)⟩

theorem Number.Valid.endsInDigit {number : Number} (h : number.Valid) : EndsInDigit number.text := by
  have hinteger : EndsInDigit number.integerText :=
    (endsInDigit_digits h.integer.ne_nil h.integer.digits).append _
  have hfraction : EndsInDigit (number.integerText ++ fractionText number.fraction) := by
    cases hfraction : number.fraction with
    | none => simpa [fractionText] using hinteger
    | some digits =>
      have hdigits := h.fraction digits hfraction
      rw [fractionText, ← List.singleton_append]
      exact ((endsInDigit_digits hdigits.1 hdigits.2).append _).append _
  unfold Number.text
  cases hexponent : number.exponent with
  | none => simpa [exponentText] using hfraction
  | some exponent =>
    have hvalid := h.exponent exponent hexponent
    rw [exponentText, Exponent.text]
    exact ((endsInDigit_digits hvalid.ne_nil hvalid.digits).append _).append _

theorem parseJson_of_denotes {levels : Nat} {text : Str} {v : Json F} (h : Denotes F levels text v)
    : ∀ x, (EndsInDigit text → Delimited x) → parseJson F levels (text ++ x) = .ok (v, x) := by
  induction h with
  | null | true | false =>
    intro x _
    rfl
  | number h =>
    intro x hx
    have hread := parseNumber_text (F := F) h delimited_nil
    rw [List.append_nil] at hread
    exact parseJson_number _ (parseNumber_append_right (hx h.endsInDigit) hread)
  | string h =>
    intro x _
    exact parseJson_quote _ h x
  | emptyArray h =>
    intro x _
    rw [List.append_assoc, List.cons_append, List.singleton_append, parseJson_bracket,
      getNextToken_white h (by decide), ok_bind]
    rfl
  | array hne h hvalue ih =>
    intro x _
    apply parseJson_padded_array hne
    intro element helement
    refine ⟨h element helement, startsValue_of_denotes (hvalue element helement), ?_⟩
    exact fun x hx => ih element helement x fun _ => hx
  | emptyObject h =>
    intro x _
    rw [List.append_assoc, List.cons_append, List.singleton_append, parseJson_brace,
      getNextToken_white h (by decide), ok_bind]
    rfl
  | object hne h hvalue ih =>
    intro x _
    apply parseJson_padded_object hne
    intro member hmember
    refine ⟨h member hmember, startsValue_of_denotes (hvalue member hmember), ?_⟩
    exact fun x hx => ih member hmember x fun _ => hx

/-! ## What an accepted text denotes -/

-- a text up to `r`, with white space before it
def Derived (levels : Nat) (s r : Str) (v : Json F) : Prop :=
  ∃ before text, White before ∧ s = before ++ (text ++ r) ∧ Denotes F levels text v

section

variable {value : Str → Except Str (Json F × Str)} {levels : Nat}

theorem Element.Valid.widen {element : Element F} (h : element.Valid) {white : Str}
    (hwhite : White white) : { element with before := white ++ element.before }.Valid := by
  refine ⟨?_, h.after⟩
  intro a ha
  exact (List.mem_append.mp ha).elim (hwhite a) (h.before a)

theorem Member.Valid.widen {member : Member F} (h : member.Valid) {white : Str}
    (hwhite : White white) : { member with before := white ++ member.before }.Valid :=
  ⟨h.toValid.widen hwhite, h.key, h.afterKey, h.beforeValue⟩

theorem elements_of_parseElements
    (hvalue : ∀ s r v, value s = .ok (v, r) → Derived levels s r v)
    : ∀ (n : Nat) (s r : Str) (data : List (Json F)) (v : Json F),
        parseElements value n s data = .ok (v, r) →
          ∃ (element : Element F) (elements : List (Element F)),
            (∀ e ∈ element :: elements, e.Valid ∧ Denotes F levels e.text e.value)
            ∧ s = element.padded ++ ((elements.flatMap fun e => 0x2c :: e.padded) ++ 0x5d :: r)
            ∧ v = .array (data ++ (element :: elements).map (·.value)) := by
  intro n
  induction n with
  | zero =>
    intro s r data v h
    contradiction
  | succ n ih =>
    intro s r data v h
    unfold parseElements at h
    simp only [bind_eq_ok] at h
    rcases h with ⟨⟨w, s₁⟩, hw, ⟨c, s₂⟩, hc, h⟩
    rcases hvalue s s₁ w hw with ⟨before, text, hbefore, rfl, hdenotes⟩
    rcases split_of_getNextToken hc with ⟨after, hafter, heq, _⟩
    dsimp only at heq h
    have hfirst : (Element.mk before text w after).Valid := ⟨hbefore, hafter⟩
    split at h
    . next hclose =>
      simp only [pure_eq_ok, Except.ok.injEq, Prod.mk.injEq] at h
      refine ⟨⟨before, text, w, after⟩, [], ?_, ?_, h.1.symm⟩
      . intro e he
        rw [List.mem_singleton.mp he]
        exact ⟨hfirst, hdenotes⟩
      . rw [heq, hclose, h.2]
        simp [Element.padded]
    . split at h
      . contradiction
      . next hcomma =>
        rw [bind_eq_ok] at h
        rcases h with ⟨⟨d, s₃⟩, hd, h⟩
        rcases split_of_getNextToken hd with ⟨white, hwhite, heq', _⟩
        rcases ih _ _ _ _ h with ⟨element, elements, hall, hs, hv⟩
        rw [List.forall_mem_cons] at hall
        refine ⟨⟨before, text, w, after⟩,
          { element with before := white ++ element.before } :: elements, ?_, ?_, ?_⟩
        . rw [List.forall_mem_cons, List.forall_mem_cons]
          exact ⟨⟨hfirst, hdenotes⟩, ⟨hall.1.1.widen hwhite, hall.1.2⟩, hall.2⟩
        . dsimp only at hs heq'
          rw [heq, heq', not_not.mp hcomma, hs]
          simp [Element.padded]
        . rw [hv]
          simp

theorem members_of_parseMembers
    (hvalue : ∀ s r v, value s = .ok (v, r) → Derived levels s r v)
    : ∀ (n : Nat) (ch : UInt8) (s r : Str) (data : List (Str × Json F)) (v : Json F),
        parseMembers value n ch s data = .ok (v, r) →
          ∃ (member : Member F) (members : List (Member F)),
            (∀ m ∈ member :: members, m.Valid ∧ Denotes F levels m.text m.value)
            ∧ ch :: s = member.padded ++ ((members.flatMap fun m => 0x2c :: m.padded) ++ 0x7d :: r)
            ∧ v = .object ((member :: members).foldl
                (fun fields m => Json.insert (decode m.key) m.value fields) data) := by
  intro n
  induction n with
  | zero =>
    intro ch s r data v h
    contradiction
  | succ n ih =>
    intro ch s r data v h
    unfold parseMembers at h
    split at h
    . contradiction
    . next hquote =>
      rw [bind_eq_ok] at h
      rcases h with ⟨⟨key, s₁⟩, hkey, h⟩
      rcases units_of_parseString hkey with ⟨units, hunits, rfl, hdecode⟩
      rw [bind_eq_ok] at h
      rcases h with ⟨⟨colon, s₂⟩, hcolon, h⟩
      rcases split_of_getNextToken hcolon with ⟨afterKey, hafterKey, heqKey, _⟩
      dsimp only at heqKey hdecode h
      split at h
      . contradiction
      . next hcolon' =>
        rw [bind_eq_ok] at h
        rcases h with ⟨⟨w, s₃⟩, hw, h⟩
        rcases hvalue s₂ s₃ w hw with ⟨beforeValue, text, hbeforeValue, rfl, hdenotes⟩
        rw [bind_eq_ok] at h
        rcases h with ⟨⟨c, s₄⟩, hc, h⟩
        rcases split_of_getNextToken hc with ⟨after, hafter, heq, _⟩
        dsimp only at heq h
        have hfirst : (Member.mk (Element.mk [] text w after) units afterKey beforeValue).Valid :=
          ⟨⟨white_nil, hafter⟩, hunits, hafterKey, hbeforeValue⟩
        have hkeyeq : key = decode units := hdecode
        rw [heqKey, not_not.mp hquote, not_not.mp hcolon', heq]
        split at h
        . next hclose =>
          simp only [pure_eq_ok, Except.ok.injEq, Prod.mk.injEq] at h
          refine ⟨⟨⟨[], text, w, after⟩, units, afterKey, beforeValue⟩, [], ?_, ?_, ?_⟩
          . intro m hm
            rw [List.mem_singleton.mp hm]
            exact ⟨hfirst, hdenotes⟩
          . rw [hclose, h.2]
            simp [Member.padded, quoted]
          . rw [← h.1, hkeyeq]
            rfl
        . split at h
          . contradiction
          . next hcomma =>
            rw [bind_eq_ok] at h
            rcases h with ⟨⟨d, s₅⟩, hd, h⟩
            rcases split_of_getNextToken hd with ⟨white, hwhite, heq', _⟩
            rcases ih _ _ _ _ _ h with ⟨member, members, hall, hs, hv⟩
            rw [List.forall_mem_cons] at hall
            refine ⟨⟨⟨[], text, w, after⟩, units, afterKey, beforeValue⟩,
              { member with before := white ++ member.before } :: members, ?_, ?_, ?_⟩
            . rw [List.forall_mem_cons, List.forall_mem_cons]
              exact ⟨⟨hfirst, hdenotes⟩, ⟨hall.1.1.widen hwhite, hall.1.2⟩, hall.2⟩
            . dsimp only at hs heq'
              rw [heq', not_not.mp hcomma, hs]
              simp [Member.padded, quoted]
            . rw [hv, hkeyeq]
              rfl

theorem denotes_of_expect {s r t : Str} {v res : Json F} (levels : Nat)
    (hdenotes : Denotes F (levels + 1) t res) (h : expect t res s = .ok (v, r))
    : s = t ++ r ∧ Denotes F (levels + 1) t v := by
  unfold expect at h
  split at h
  . next htake =>
    simp only [pure_eq_ok, Except.ok.injEq, Prod.mk.injEq] at h
    refine ⟨?_, ?_⟩
    . rw [← h.2]
      conv_lhs => rw [← List.take_append_drop t.length s, htake]
    . rw [← h.1]
      exact hdenotes
  . contradiction

theorem denotes_of_elements {element : Element F} {elements : List (Element F)}
    (h : ∀ e ∈ element :: elements, e.Valid ∧ Denotes F levels e.text e.value) (r : Str)
    : ∃ text, 0x5b :: (element.padded ++ ((elements.flatMap fun e => 0x2c :: e.padded) ++ 0x5d :: r))
          = text ++ r
        ∧ Denotes F (levels + 1) text (.array ((element :: elements).map (·.value))) := by
  refine ⟨_, ?_, .array (by simp) (fun e he => (h e he).1) (fun e he => (h e he).2)⟩
  rw [intercalate_map_cons]
  simp

theorem denotes_of_members {member : Member F} {members : List (Member F)}
    (h : ∀ m ∈ member :: members, m.Valid ∧ Denotes F levels m.text m.value) (r : Str)
    : ∃ text, 0x7b :: (member.padded ++ ((members.flatMap fun m => 0x2c :: m.padded) ++ 0x7d :: r))
          = text ++ r
        ∧ Denotes F (levels + 1) text (.object (fieldsOf (member :: members))) := by
  refine ⟨_, ?_, .object (by simp) (fun m hm => (h m hm).1) (fun m hm => (h m hm).2)⟩
  rw [intercalate_map_cons]
  simp

end

theorem derived_of_parseJson (levels : Nat)
    : ∀ (s r : Str) (v : Json F), parseJson F levels s = .ok (v, r) → Derived levels s r v := by
  induction levels with
  | zero =>
    intro s r v h
    contradiction
  | succ levels ih =>
    intro s r v h
    rw [parseJson, bind_eq_ok] at h
    rcases h with ⟨⟨ch, s₁⟩, hch, h⟩
    rcases split_of_getNextToken hch with ⟨before, hbefore, rfl, _⟩
    have hderived : ∀ text, ch :: s₁ = text ++ r → Denotes F (levels + 1) text v →
        Derived (levels + 1) (before ++ ch :: s₁) r v :=
      fun text htext hdenotes => ⟨before, text, hbefore, by rw [htext], hdenotes⟩
    dsimp only at h
    split at h
    . rcases number_of_parseNumber h with ⟨number, hvalid, htext, rfl⟩
      exact hderived _ htext (.number hvalid)
    split at h
    . rcases denotes_of_expect levels .true h with ⟨htext, hdenotes⟩
      exact hderived _ htext hdenotes
    split at h
    . rcases denotes_of_expect levels .false h with ⟨htext, hdenotes⟩
      exact hderived _ htext hdenotes
    split at h
    . rcases denotes_of_expect levels .null h with ⟨htext, hdenotes⟩
      exact hderived _ htext hdenotes
    split at h
    . next hquote =>
      rw [bind_eq_ok] at h
      rcases h with ⟨⟨value, s₂⟩, hstring, h⟩
      simp only [pure_eq_ok, Except.ok.injEq, Prod.mk.injEq] at h
      rcases units_of_parseString hstring with ⟨units, hunits, rfl, hvalue⟩
      rw [← h.1, show value = decode units from hvalue]
      refine ⟨before, quoted units, hbefore, ?_, .string hunits⟩
      rw [hquote, ← h.2]
      simp [quoted]
    split at h
    . next hbrace =>
      rw [bind_eq_ok] at h
      rcases h with ⟨⟨ch₂, s₂⟩, hch₂, h⟩
      rcases split_of_getNextToken hch₂ with ⟨white, hwhite, rfl, _⟩
      dsimp only at h
      split at h
      . next hclose =>
        simp only [pure_eq_ok, Except.ok.injEq, Prod.mk.injEq] at h
        rw [← h.1]
        refine ⟨before, 0x7b :: white ++ [0x7d], hbefore, ?_, .emptyObject hwhite⟩
        rw [hbrace, hclose, ← h.2]
        simp
      . rcases members_of_parseMembers ih _ _ _ _ _ _ h with ⟨member, members, hall, hs, rfl⟩
        have hpadded : ∀ m ∈ { member with before := white ++ member.before } :: members,
            m.Valid ∧ Denotes F levels m.text m.value := by
          rw [List.forall_mem_cons] at hall ⊢
          exact ⟨⟨hall.1.1.widen hwhite, hall.1.2⟩, hall.2⟩
        rcases denotes_of_members hpadded r with ⟨text, htext, hdenotes⟩
        refine hderived text ?_ hdenotes
        rw [hbrace, ← htext, hs]
        simp [Member.padded]
    split at h
    . next hbracket =>
      rw [bind_eq_ok] at h
      rcases h with ⟨⟨ch₂, s₂⟩, hch₂, h⟩
      rcases split_of_getNextToken hch₂ with ⟨white, hwhite, rfl, _⟩
      dsimp only at h
      split at h
      . next hclose =>
        simp only [pure_eq_ok, Except.ok.injEq, Prod.mk.injEq] at h
        rw [← h.1]
        refine ⟨before, 0x5b :: white ++ [0x5d], hbefore, ?_, .emptyArray hwhite⟩
        rw [hbracket, hclose, ← h.2]
        simp
      . rcases elements_of_parseElements ih _ _ _ _ _ h with ⟨element, elements, hall, hs, rfl⟩
        have hpadded : ∀ e ∈ { element with before := white ++ element.before } :: elements,
            e.Valid ∧ Denotes F levels e.text e.value := by
          rw [List.forall_mem_cons] at hall ⊢
          exact ⟨⟨hall.1.1.widen hwhite, hall.1.2⟩, hall.2⟩
        rcases denotes_of_elements hpadded r with ⟨text, htext, hdenotes⟩
        refine hderived text ?_ hdenotes
        rw [hbracket, ← htext, hs]
        simp [Element.padded]
    . contradiction

/-! ## `parse` -/

theorem parseText_eq_ok (str : Str) (v : Json F) : parseText F str = .ok v ↔ IsText F str v := by
  constructor
  . intro h
    unfold parseText at h
    rw [bind_eq_ok] at h
    rcases h with ⟨⟨result, s⟩, hresult, h⟩
    rcases derived_of_parseJson _ _ _ _ hresult with ⟨before, text, hbefore, rfl, hdenotes⟩
    dsimp only at h
    split at h
    . next hend =>
      rw [consumeWhitespace, List.dropWhile_eq_nil_iff] at hend
      simp only [pure_eq_ok, Except.ok.injEq] at h
      refine ⟨before, text, s, hbefore, hend, by simp, ?_⟩
      rw [← h]
      exact hdenotes
    . contradiction
  . rintro ⟨before, text, after, hbefore, hafter, rfl, hdenotes⟩
    have hdelimited := delimited_white hafter delimited_nil
    rw [List.append_nil] at hdelimited
    have hend : consumeWhitespace after = [] := by
      rw [consumeWhitespace, List.dropWhile_eq_nil_iff]
      exact hafter
    unfold parseText
    rw [List.append_assoc, parseJson_white hbefore,
      parseJson_of_denotes hdenotes _ fun _ => hdelimited,
      ok_bind]
    dsimp only
    rw [hend]
    rfl

theorem parse_iff_isText (str : Str) (v : Json F)
    : ((parse F str).2 = [] ∧ (parse F str).1 = v) ↔ IsText F str v := by
  rw [← parseText_eq_ok]
  constructor
  . rintro ⟨herror, rfl⟩
    exact parseText_of_parse herror
  . intro h
    simp [parse, h]

end Json11
