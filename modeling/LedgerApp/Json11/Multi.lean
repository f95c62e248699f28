import LedgerApp.Json11.Integers
import LedgerApp.Json11.Lemmas.Accepts

/-!
`Json::parse_multi`, which reads one text after the other: what it reads of an input, where it
stops, and how the rest is read when more of the input is there.
-/

namespace Json11

open Bytes Outcome

/-- The vector `parse_multi` returns, the stop position and the error text. -/
@[ext]
structure Multi (F : Double) where
  jsonVec : List (Json F)
  parserStopPos : Nat
  err : Str

variable {F : Double}

-- what `parse_json` returns when it fails; `parse_string` fails with an empty string
def failedJson (s : Str) : Json F :=
  match consumeWhitespace s with
  | 0x22 :: _ => .string []
  | _ => .null

variable (F)

/--
The loop of `parse_multi` on the input from position `i` on, where `size` is the length of the whole
input. Every pass consumes input, so the bound on the passes is never reached.
-/
def parseMultiLoop (size : Nat) : Nat → Str → Multi F → Multi F
  | 0, _, multi => multi
  | n + 1, s, multi =>
    if s = [] then
      multi
    else
      match parseJson F (maxDepth + 1) s with
      | .error err => { multi with jsonVec := multi.jsonVec ++ [failedJson s], err }
      | .ok (v, s) =>
        let s := consumeWhitespace s
        parseMultiLoop size n s
          { multi with jsonVec := multi.jsonVec ++ [v], parserStopPos := size - s.length }

def parseMulti (str : Str) : Multi F :=
  parseMultiLoop F str.length str.length str { jsonVec := [], parserStopPos := 0, err := [] }

variable {F}

-- without what a failure has added
def Multi.read (multi : Multi F) : List (Json F) :=
  if multi.err = [] then multi.jsonVec else multi.jsonVec.dropLast

-- the same of an input with `count` more bytes before it, which were read as `values`
def Multi.after (multi : Multi F) (values : List (Json F)) (count : Nat) : Multi F where
  jsonVec := values ++ multi.jsonVec
  parserStopPos := count + multi.parserStopPos
  err := multi.err

/-! ## The texts of an input -/

structure Element.Denoted (element : Element F) : Prop extends element.Valid where
  denotes : Denotes F (maxDepth + 1) element.text element.value

-- a number does not go on in the next text
def Element.Apart (element next : Element F) : Prop :=
  EndsInDigit element.padded → Delimited next.padded

structure Splits (str : Str) (elements : List (Element F)) : Prop where
  text : str = elements.flatMap Element.padded
  denoted : ∀ element ∈ elements, element.Denoted
  apart : elements.IsChain Element.Apart

def IsStream (str : Str) (values : List (Json F)) : Prop :=
  ∃ elements : List (Element F), Splits str elements ∧ values = elements.map (·.value)

/-! ## What follows a number -/

theorem isDigit_peek_dropWhile (s : Str) : isDigit (peek (s.dropWhile isDigit)) = false := by
  have hhead := List.head?_dropWhile_not isDigit s
  cases h : s.dropWhile isDigit with
  | nil => rfl
  | cons c t =>
    rw [h] at hhead
    simpa using hhead

theorem integerPart_rest {s t r : Str} (h : integerPart s = .ok (t, r))
    : isDigit (peek r) = false := by
  unfold integerPart at h
  split at h
  . split at h
    . contradiction
    . next hdigit =>
      simp only [pure_eq_ok, Except.ok.injEq, Prod.mk.injEq] at h
      rw [← h.2]
      simpa using hdigit
  . split at h
    . simp only [pure_eq_ok, Except.ok.injEq, Prod.mk.injEq] at h
      rw [← h.2]
      exact isDigit_peek_dropWhile s
    . contradiction

theorem decimalPart_rest {s t r : Str} (hs : isDigit (peek s) = false)
    (h : decimalPart s = .ok (t, r)) : isDigit (peek r) = false := by
  unfold decimalPart at h
  split at h
  . split at h
    . simp only [pure_eq_ok, Except.ok.injEq, Prod.mk.injEq] at h
      rw [← h.2]
      exact isDigit_peek_dropWhile s.tail
    . contradiction
  . simp only [pure_eq_ok, Except.ok.injEq, Prod.mk.injEq] at h
    rw [← h.2]
    exact hs

theorem exponentPart_rest {s t r : Str} (hs : isDigit (peek s) = false)
    (h : exponentPart s = .ok (t, r)) : isDigit (peek r) = false := by
  unfold exponentPart at h
  split at h
  . dsimp only at h
    split at h
    . simp only [pure_eq_ok, Except.ok.injEq, Prod.mk.injEq] at h
      rw [← h.2]
      exact isDigit_peek_dropWhile _
    . contradiction
  . simp only [pure_eq_ok, Except.ok.injEq, Prod.mk.injEq] at h
    rw [← h.2]
    exact hs

theorem parseNumber_rest {s r : Str} {v : Json F} (h : parseNumber F s = .ok (v, r))
    : isDigit (peek r) = false := by
  unfold parseNumber at h
  simp only [bind_eq_ok] at h
  rcases h with ⟨⟨digits, t⟩, hinteger, h⟩
  have ht := integerPart_rest hinteger
  dsimp only at h
  split at h
  . simp only [pure_eq_ok, Except.ok.injEq, Prod.mk.injEq] at h
    rw [← h.2]
    exact ht
  . simp only [bind_eq_ok] at h
    rcases h with ⟨⟨decimals, u⟩, hdecimal, ⟨exponent, w⟩, hexponent, h⟩
    simp only [pure_eq_ok, Except.ok.injEq, Prod.mk.injEq] at h
    rw [← h.2]
    exact exponentPart_rest (decimalPart_rest ht hdecimal) hexponent

theorem parseJson_digit {s : Str} (levels : Nat) (h : peek s = 0x2d ∨ isDigit (peek s) = true)
    : parseJson F (levels + 1) s = parseNumber F s := by
  cases s with
  | nil => simp [isDigit, inRange] at h
  | cons c s =>
    rw [peek_cons] at h
    have hc : isSpace c = false := by
      rcases h with rfl | h
      . rfl
      . simp only [isDigit, inRange, isSpace] at h ⊢
        grind
    rw [parseJson, getNextToken_cons _ hc, ok_bind]
    exact if_pos h

theorem not_endsInDigit {s : Str} {c : UInt8} (hlast : s.getLast? = some c)
    (hc : isDigit c = false) : ¬EndsInDigit s := by
  rintro ⟨d, hlast', hd⟩
  rw [hlast] at hlast'
  rw [← Option.some.inj hlast', hc] at hd
  contradiction

theorem isDigit_peek_of_denotes {levels : Nat} {text r : Str} {v : Json F}
    (h : Denotes F levels text v) (hends : EndsInDigit text)
    (hparse : parseJson F levels (text ++ r) = .ok (v, r)) : isDigit (peek r) = false := by
  cases h with
  | @number _ number h =>
    have hread := parseNumber_text (F := F) h delimited_nil
    have hpeek := peek_of_parseNumber hread
    have hne : number.text ≠ [] := by
      intro hnil
      rw [hnil] at hends
      rcases hends with ⟨c, hlast, _⟩
      contradiction
    rw [List.append_nil, ← peek_append_of_ne_nil hne (x := r)] at hpeek
    rw [parseJson_digit _ hpeek] at hparse
    exact parseNumber_rest hparse
  | null => exact absurd hends (not_endsInDigit (c := 0x6c) (by decide) (by decide))
  | true | false => exact absurd hends (not_endsInDigit (c := 0x65) (by decide) (by decide))
  | string | emptyArray | array | emptyObject | object =>
    exact absurd hends (not_endsInDigit List.getLast?_concat (by decide))

theorem peek_of_parseJson {levels : Nat} {s : Str} {p : Json F × Str}
    (h : parseJson F levels s = .ok p) : peek s ≠ 0x2e ∧ peek s ≠ 0x65 ∧ peek s ≠ 0x45 := by
  have hrefused : ∀ c t, c = 0x2e ∨ c = 0x65 ∨ c = 0x45 → s ≠ c :: t := by
    rintro c t hc rfl
    cases levels with
    | zero => contradiction
    | succ levels =>
      rw [parseJson, getNextToken_cons _ (by rcases hc with rfl | rfl | rfl <;> rfl), ok_bind] at h
      rcases hc with rfl | rfl | rfl
      all_goals contradiction
  cases s with
  | nil => decide
  | cons c t =>
    rw [peek_cons]
    refine ⟨?_, ?_, ?_⟩
    all_goals
      rintro rfl
      exact hrefused _ t (by simp) rfl

/-! ## One text -/

theorem Element.Denoted.not_white {element : Element F} (h : element.Denoted) (r : Str)
    : ¬White (element.padded ++ r) := by
  rcases startsValue_of_denotes h.denotes with ⟨c, t, htext, hc, _⟩
  intro hwhite
  have := hwhite c (by simp [Element.padded, htext])
  rw [hc] at this
  contradiction

theorem parseJson_element {element : Element F} {r : Str} (h : element.Denoted)
    (hnext : EndsInDigit element.padded → Delimited r)
    : parseJson F (maxDepth + 1) (element.padded ++ r)
        = .ok (element.value, element.after ++ r) := by
  rw [Element.padded, List.append_assoc, List.append_assoc, parseJson_white h.before]
  apply parseJson_of_denotes h.denotes
  intro hends
  cases hafter : element.after with
  | nil =>
    apply hnext
    rw [Element.padded, hafter, List.append_nil]
    exact hends.append _
  | cons c t =>
    have hc := h.after c (by simp [hafter])
    exact delimited_space hc _

theorem peek_padded {element : Element F} (h : element.Denoted)
    : peek element.padded ≠ 0x2e ∧ peek element.padded ≠ 0x65 ∧ peek element.padded ≠ 0x45 := by
  have hparse := parseJson_element h fun _ => delimited_nil
  rw [List.append_nil] at hparse
  exact peek_of_parseJson hparse

theorem padded_ne_nil {element : Element F} (h : element.Denoted) : element.padded ≠ [] := by
  intro hnil
  apply h.not_white []
  rw [hnil]
  exact white_nil

theorem consumeWhitespace_white {white : Str} (hwhite : White white) (s : Str)
    : consumeWhitespace (white ++ s) = consumeWhitespace s := by
  unfold consumeWhitespace
  exact List.dropWhile_append_of_pos hwhite

theorem split_white (s : Str) : ∃ white, White white ∧ s = white ++ consumeWhitespace s :=
  ⟨s.takeWhile isSpace, fun _ hc => List.mem_takeWhile_imp hc,
    List.takeWhile_append_dropWhile.symm⟩

-- the text that `parse_json` has read, with the white space around it
theorem element_of_parseJson {s r : Str} {v : Json F}
    (h : parseJson F (maxDepth + 1) s = .ok (v, r))
    : ∃ element : Element F, element.Denoted ∧ element.value = v
        ∧ s = element.padded ++ consumeWhitespace r
        ∧ (EndsInDigit element.padded → isDigit (peek (consumeWhitespace r)) = false) := by
  rcases derived_of_parseJson _ _ _ _ h with ⟨before, text, hbefore, rfl, hdenotes⟩
  rcases split_white r with ⟨after, hafter, hr⟩
  refine ⟨⟨before, text, v, after⟩, ⟨⟨hbefore, hafter⟩, hdenotes⟩, rfl, ?_, ?_⟩
  . rw [Element.padded, List.append_assoc, List.append_assoc, ← hr]
  . intro hends
    rw [parseJson_white hbefore] at h
    rcases hends with ⟨c, hlast, hc⟩
    cases after with
    | nil =>
      rw [List.nil_append] at hr
      rw [← hr]
      apply isDigit_peek_of_denotes hdenotes _ h
      rcases startsValue_of_denotes hdenotes with ⟨d, t, rfl, _⟩
      refine ⟨c, ?_, hc⟩
      simpa [Element.padded, List.getLast?_append] using hlast
    | cons d after =>
      have hspace : isSpace c = true := by
        apply hafter
        apply List.mem_of_getLast?
        simpa [Element.padded, List.getLast?_append] using hlast
      exfalso
      simp only [isDigit, inRange, isSpace] at hc hspace
      grind

/-! ## The loop -/

theorem length_parseJson_lt {s r : Str} {v : Json F} (h : parseJson F (maxDepth + 1) s = .ok (v, r))
    : (consumeWhitespace r).length < s.length := by
  have hconsumes := (parseJson_consumes F (maxDepth + 1) s).ok h
  have hlen := consumeWhitespace_length_le r
  dsimp only at hconsumes
  omega

theorem parseMultiLoop_nil (size n : Nat) (multi : Multi F)
    : parseMultiLoop F size n [] multi = multi := by
  cases n with
  | zero => rfl
  | succ n => rfl

theorem parseMultiLoop_error {s err : Str} (size : Nat) {n : Nat} (multi : Multi F)
    (hlen : s.length ≤ n) (hne : s ≠ []) (h : parseJson F (maxDepth + 1) s = .error err)
    : parseMultiLoop F size n s multi
        = { multi with jsonVec := multi.jsonVec ++ [failedJson s], err } := by
  have hpos := List.length_pos_iff.mpr hne
  cases n with
  | zero => omega
  | succ n => rw [parseMultiLoop, if_neg hne, h]

theorem parseMultiLoop_passes (size n m : Nat) (s : Str) (multi : Multi F) (hn : s.length ≤ n)
    (hm : s.length ≤ m) : parseMultiLoop F size n s multi = parseMultiLoop F size m s multi := by
  induction n generalizing m s multi with
  | zero =>
    rw [List.eq_nil_of_length_eq_zero (Nat.le_zero.mp hn), parseMultiLoop_nil, parseMultiLoop_nil]
  | succ n ih =>
    cases m with
    | zero =>
      rw [List.eq_nil_of_length_eq_zero (Nat.le_zero.mp hm), parseMultiLoop_nil, parseMultiLoop_nil]
    | succ m =>
      rw [parseMultiLoop, parseMultiLoop]
      split
      . rfl
      . split
        . rfl
        . next v r h =>
          have hlen := length_parseJson_lt h
          apply ih
          . omega
          . omega

theorem parseMultiLoop_ok {s r : Str} {v : Json F} (size : Nat) {n : Nat} (multi : Multi F)
    (hlen : s.length ≤ n) (h : parseJson F (maxDepth + 1) s = .ok (v, r))
    : parseMultiLoop F size n s multi
        = parseMultiLoop F size (consumeWhitespace r).length (consumeWhitespace r)
            { multi with
              jsonVec := multi.jsonVec ++ [v]
              parserStopPos := size - (consumeWhitespace r).length } := by
  have hrest := length_parseJson_lt h
  cases n with
  | zero => omega
  | succ n =>
    have hne : s ≠ [] := by
      rintro rfl
      contradiction
    rw [parseMultiLoop, if_neg hne, h]
    exact parseMultiLoop_passes _ _ _ _ _ (by omega) (Nat.le_refl _)

theorem parseMultiLoop_after (size count : Nat) (values : List (Json F)) (n : Nat) (s : Str)
    (multi : Multi F) (hsize : s.length ≤ size)
    : parseMultiLoop F (count + size) n s (multi.after values count)
        = (parseMultiLoop F size n s multi).after values count := by
  induction n generalizing s multi with
  | zero => rfl
  | succ n ih =>
    rw [parseMultiLoop, parseMultiLoop]
    split
    . rfl
    . split
      . simp [Multi.after]
      . next v r h =>
        have hlen := length_parseJson_lt h
        dsimp only
        rw [← ih _ _ (by omega)]
        congr 1
        ext
        . simp [Multi.after]
        . simp only [Multi.after]
          omega
        . rfl

theorem parseMulti_nil : parseMulti F [] = ⟨[], 0, []⟩ := rfl

theorem parseMulti_error {s err : Str} (hne : s ≠ []) (h : parseJson F (maxDepth + 1) s = .error err)
    : parseMulti F s = ⟨[failedJson s], 0, err⟩ := by
  rw [parseMulti, parseMultiLoop_error _ _ (Nat.le_refl _) hne h]
  rfl

theorem parseMulti_ok {s r : Str} {v : Json F} (h : parseJson F (maxDepth + 1) s = .ok (v, r))
    : parseMulti F s = (parseMulti F (consumeWhitespace r)).after [v]
        (s.length - (consumeWhitespace r).length) := by
  have hlen := length_parseJson_lt h
  rw [parseMulti, parseMultiLoop_ok _ _ (Nat.le_refl _) h, parseMulti,
    ← parseMultiLoop_after _ _ _ _ _ _ (Nat.le_refl _), Nat.sub_add_cancel (Nat.le_of_lt hlen)]
  rfl

theorem Multi.after_after (multi : Multi F) (values values' : List (Json F)) (count count' : Nat)
    : (multi.after values count).after values' count'
        = multi.after (values' ++ values) (count' + count) := by
  simp [Multi.after, Nat.add_assoc]

theorem parseJson_trim {s t : Str} (h : consumeWhitespace s = consumeWhitespace t) (levels : Nat)
    : parseJson F levels s = parseJson F levels t := by
  rcases split_white s with ⟨white, hwhite, hs⟩
  rcases split_white t with ⟨white', hwhite', ht⟩
  rw [hs, ht, parseJson_white hwhite, parseJson_white hwhite', h]

theorem consumeWhitespace_idem (s : Str)
    : consumeWhitespace (consumeWhitespace s) = consumeWhitespace s := by
  rcases split_white s with ⟨white, hwhite, hs⟩
  conv_rhs => rw [hs, consumeWhitespace_white hwhite]

/-! ## What is read -/

theorem endsInDigit_flatMap {element : Element F} {elements : List (Element F)}
    (h : EndsInDigit (elements.flatMap Element.padded))
    : EndsInDigit ((element :: elements).flatMap Element.padded) := by
  rw [List.flatMap_cons]
  exact h.append _

theorem parseMulti_elements {r : Str} (elements : List (Element F)) (hne : elements ≠ [])
    (hdenoted : ∀ element ∈ elements, element.Denoted) (hapart : elements.IsChain Element.Apart)
    (hnext : EndsInDigit (elements.flatMap Element.padded) → Delimited r)
    : ∀ s, consumeWhitespace s = consumeWhitespace (elements.flatMap Element.padded ++ r) →
        (consumeWhitespace r).length ≤ s.length
          ∧ parseMulti F s = (parseMulti F (consumeWhitespace r)).after (elements.map (·.value))
              (s.length - (consumeWhitespace r).length) := by
  induction elements with
  | nil => contradiction
  | cons element elements ih =>
    intro s hs
    rw [List.forall_mem_cons] at hdenoted
    rw [List.flatMap_cons, List.append_assoc] at hs
    let left := consumeWhitespace (elements.flatMap Element.padded ++ r)
    have hparse : parseJson F (maxDepth + 1) s
        = .ok (element.value, element.after ++ (elements.flatMap Element.padded ++ r)) := by
      rw [parseJson_trim hs]
      apply parseJson_element hdenoted.1
      intro hends
      cases elements with
      | nil => exact hnext (by simpa using hends)
      | cons next elements =>
        rw [List.forall_mem_cons] at hdenoted
        rw [List.isChain_cons_cons] at hapart
        have hdelimited := hapart.1 hends
        unfold Delimited at hdelimited ⊢
        rw [List.flatMap_cons, List.append_assoc, peek_append_of_ne_nil (padded_ne_nil hdenoted.2.1)]
        exact hdelimited
    have hleft : consumeWhitespace (element.after ++ (elements.flatMap Element.padded ++ r)) = left :=
      consumeWhitespace_white hdenoted.1.after _
    have hlen := length_parseJson_lt hparse
    have hmulti := parseMulti_ok hparse
    rw [hleft] at hlen hmulti
    cases elements with
    | nil => exact ⟨Nat.le_of_lt hlen, hmulti⟩
    | cons next elements =>
      have hlater := ih (by simp) hdenoted.2 hapart.tail (fun h => hnext (endsInDigit_flatMap h)) left
        (consumeWhitespace_idem _)
      refine ⟨by omega, ?_⟩
      rw [hmulti, hlater.2, Multi.after_after]
      congr 1
      omega

/-- The texts that are read of an input, and what is left of it. -/
structure Reading (s : Str) (elements : List (Element F)) (rest : Str) : Prop where
  text : s = elements.flatMap Element.padded ++ rest
  denoted : ∀ element ∈ elements, element.Denoted
  apart : elements.IsChain Element.Apart
  stop : (parseMulti F s).parserStopPos = s.length - rest.length
  read : (parseMulti F s).read = elements.map (·.value)
  outcome : (rest = [] ∧ (parseMulti F s).err = []) ∨
    (rest ≠ [] ∧ (parseMulti F s).err ≠ []
      ∧ parseJson F (maxDepth + 1) rest = .error (parseMulti F s).err
      ∧ (parseMulti F s).jsonVec = elements.map (·.value) ++ [failedJson rest])

theorem reading_nil : Reading (F := F) [] [] [] where
  text := rfl
  denoted := by simp
  apart := .nil
  stop := rfl
  read := rfl
  outcome := .inl ⟨rfl, rfl⟩

theorem reading_error {s err : Str} (hne : s ≠ [])
    (h : parseJson F (maxDepth + 1) s = .error err) : Reading (F := F) s [] s := by
  have herr : err ≠ [] := (parseJson_consumes F (maxDepth + 1) s).error h
  have hmulti := parseMulti_error hne h
  refine ⟨rfl, by simp, .nil, ?_, ?_, .inr ⟨hne, ?_, ?_, ?_⟩⟩
  . rw [hmulti, Nat.sub_self]
  . simp [Multi.read, hmulti, herr]
  . rw [hmulti]
    exact herr
  . rw [hmulti, h]
  . rw [hmulti]
    rfl

theorem read_after (multi : Multi F) (values : List (Json F)) (count : Nat)
    (h : multi.err = [] ∨ multi.jsonVec ≠ [])
    : (multi.after values count).read = values ++ multi.read := by
  unfold Multi.read Multi.after
  dsimp only
  split
  . rfl
  . next herr =>
    rw [List.dropLast_append_of_ne_nil]
    exact h.resolve_left herr

theorem Reading.cons {s r rest : Str} {v : Json F} {elements : List (Element F)}
    (h : parseJson F (maxDepth + 1) s = .ok (v, r))
    (hr : Reading (consumeWhitespace r) elements rest)
    : ∃ element : Element F, Reading s (element :: elements) rest := by
  rcases element_of_parseJson h with ⟨element, hdenoted, rfl, hs, hdigit⟩
  have hmulti := parseMulti_ok h
  have hlen := length_parseJson_lt h
  have hrest : rest.length ≤ (consumeWhitespace r).length := by
    rw [hr.text]
    simp
  refine ⟨element, ?_, ?_, ?_, ?_, ?_, ?_⟩
  . rw [List.flatMap_cons, List.append_assoc, ← hr.text]
    exact hs
  . rw [List.forall_mem_cons]
    exact ⟨hdenoted, hr.denoted⟩
  . cases elements with
    | nil => exact .singleton element
    | cons next elements =>
      rw [List.isChain_cons_cons]
      refine ⟨?_, hr.apart⟩
      intro hends
      have hnext := hr.denoted next (by simp)
      have hpeek := hdigit hends
      rw [hr.text, List.flatMap_cons, List.append_assoc, peek_append_of_ne_nil (padded_ne_nil hnext)]
        at hpeek
      exact ⟨hpeek, peek_padded hnext⟩
  . rw [hmulti, Multi.after, hr.stop]
    dsimp only
    omega
  . rw [hmulti, read_after, hr.read]
    . rfl
    . rcases hr.outcome with ⟨_, herr⟩ | ⟨_, _, _, hvec⟩
      . exact .inl herr
      . right
        simp [hvec]
  . rcases hr.outcome with ⟨hnil, herr⟩ | ⟨hne, herr, hparse, hvec⟩
    . left
      rw [hmulti]
      exact ⟨hnil, herr⟩
    . right
      rw [hmulti]
      refine ⟨hne, herr, hparse, ?_⟩
      rw [Multi.after, hvec]
      rfl

theorem exists_reading (n : Nat) (s : Str) (h : s.length ≤ n)
    : ∃ (elements : List (Element F)) (rest : Str), Reading s elements rest := by
  induction n generalizing s with
  | zero =>
    rw [List.eq_nil_of_length_eq_zero (Nat.le_zero.mp h)]
    exact ⟨[], [], reading_nil⟩
  | succ n ih =>
    by_cases hne : s = []
    . rw [hne]
      exact ⟨[], [], reading_nil⟩
    . cases hparse : parseJson F (maxDepth + 1) s with
      | error err => exact ⟨[], s, reading_error hne hparse⟩
      | ok p =>
        rcases p with ⟨v, r⟩
        have hlen := length_parseJson_lt hparse
        rcases ih (consumeWhitespace r) (by omega) with ⟨elements, rest, hr⟩
        rcases Reading.cons hparse hr with ⟨element, hreading⟩
        exact ⟨element :: elements, rest, hreading⟩

theorem Reading.take {s rest : Str} {elements : List (Element F)} (h : Reading s elements rest)
    : s.take (parseMulti F s).parserStopPos = elements.flatMap Element.padded := by
  rw [h.stop]
  conv_lhs => rw [h.text]
  simp

theorem Reading.drop {s rest : Str} {elements : List (Element F)} (h : Reading s elements rest)
    : s.drop (parseMulti F s).parserStopPos = rest := by
  rw [h.stop]
  conv_lhs => rw [h.text]
  simp

structure ReadsStream (F : Double) (str : Str) : Prop where
  accepts : ∀ values, ((parseMulti F str).err = [] ∧ (parseMulti F str).jsonVec = values) ↔
    IsStream str values
  consumes : (parseMulti F str).err = [] → (parseMulti F str).parserStopPos = str.length
  refuses : (parseMulti F str).err ≠ [] → ∃ values,
    IsStream (str.take (parseMulti F str).parserStopPos) values
      ∧ parseJson F (maxDepth + 1) (str.drop (parseMulti F str).parserStopPos)
          = .error (parseMulti F str).err
      ∧ (parseMulti F str).jsonVec
          = values ++ [failedJson (str.drop (parseMulti F str).parserStopPos)]

theorem parseMulti_of_isStream {str : Str} {values : List (Json F)} (h : IsStream str values)
    : parseMulti F str = ⟨values, str.length, []⟩ := by
  rcases h with ⟨elements, ⟨rfl, hdenoted, hapart⟩, rfl⟩
  by_cases hne : elements = []
  . rw [hne]
    rfl
  . have hread := parseMulti_elements (r := []) elements hne hdenoted hapart
      (fun _ => delimited_nil) _ (by rw [List.append_nil])
    rw [hread.2]
    simp [consumeWhitespace, parseMulti_nil, Multi.after]

theorem parseMulti_reads (F : Double) (str : Str) : ReadsStream F str := by
  rcases exists_reading (F := F) str.length str (Nat.le_refl _) with ⟨elements, rest, hreading⟩
  refine ⟨?_, ?_, ?_⟩
  . intro values
    constructor
    . rintro ⟨herr, rfl⟩
      rcases hreading.outcome with ⟨hrest, _⟩ | ⟨_, hne, _⟩
      . have hread := hreading.read
        rw [Multi.read, if_pos herr] at hread
        refine ⟨elements, ⟨?_, hreading.denoted, hreading.apart⟩, hread⟩
        rw [hreading.text, hrest, List.append_nil]
      . exact absurd herr hne
    . intro h
      rw [parseMulti_of_isStream h]
      exact ⟨rfl, rfl⟩
  . intro herr
    rcases hreading.outcome with ⟨hrest, _⟩ | ⟨_, hne, _⟩
    . rw [hreading.stop, hrest]
      rfl
    . exact absurd herr hne
  . intro hne
    rcases hreading.outcome with ⟨_, herr⟩ | ⟨_, _, hparse, hvec⟩
    . exact absurd herr hne
    . rw [hreading.take, hreading.drop]
      exact ⟨_, ⟨elements, ⟨rfl, hreading.denoted, hreading.apart⟩, rfl⟩, hparse, hvec⟩

/-! ## More of the input -/

theorem parseMulti_resumes {a b : Str} (hread : 0 < (parseMulti F a).parserStopPos)
    (hnext : EndsInDigit (a.take (parseMulti F a).parserStopPos) →
      Delimited (a.drop (parseMulti F a).parserStopPos ++ b))
    : let left := consumeWhitespace (a.drop (parseMulti F a).parserStopPos ++ b)
      parseMulti F (a ++ b)
        = (parseMulti F left).after (parseMulti F a).read ((a ++ b).length - left.length) := by
  rcases exists_reading (F := F) a.length a (Nat.le_refl _) with ⟨elements, rest, hreading⟩
  have hne : elements ≠ [] := by
    rintro rfl
    rw [hreading.stop, hreading.text] at hread
    simp at hread
  rw [hreading.take, hreading.drop] at hnext
  rw [hreading.drop, hreading.read]
  apply (parseMulti_elements elements hne hreading.denoted hreading.apart hnext _ _).2
  rw [← List.append_assoc, ← hreading.text]

-- a number, and then an object whose key is cut
def chunk : Str :=
  lit "\x7b\x7d 1 \x7b\"ke"

def moreInput : Str :=
  lit "y\": [2]\x7d"

theorem parseMulti_resumes_chunk
    : let multi := parseMulti Double.integers chunk
      let left := consumeWhitespace (chunk.drop multi.parserStopPos ++ moreInput)
      parseMulti Double.integers (chunk ++ moreInput)
        = (parseMulti Double.integers left).after multi.read
            ((chunk ++ moreInput).length - left.length) := by
  apply parseMulti_resumes
  . decide +kernel
  . intro hends
    exact absurd hends (not_endsInDigit (c := 0x20) (by decide +kernel) (by decide))

/-! ## One text a line -/

def onLines (texts : List Str) : Str :=
  texts.flatMap fun text => text ++ [0x0a]

theorem element_of_isText {text : Str} {v : Json F} (h : IsText F text v)
    : ∃ element : Element F, element.Denoted ∧ element.value = v
        ∧ element.padded = text ++ [0x0a] := by
  rcases h with ⟨before, inner, after, hbefore, hafter, rfl, hdenotes⟩
  refine ⟨⟨before, inner, v, after ++ [0x0a]⟩, ⟨⟨hbefore, ?_⟩, hdenotes⟩, rfl, ?_⟩
  . intro c hc
    rcases List.mem_append.mp hc with hc | hc
    . exact hafter c hc
    . rw [List.mem_singleton.mp hc]
      rfl
  . simp [Element.padded]

theorem isStream_onLines {texts : List Str} (h : ∀ text ∈ texts, (parse F text).2 = [])
    : IsStream (onLines texts) (texts.map fun text => (parse F text).1) := by
  induction texts with
  | nil => exact ⟨[], ⟨rfl, by simp, .nil⟩, rfl⟩
  | cons text texts ih =>
    rw [List.forall_mem_cons] at h
    rcases ih h.2 with ⟨elements, ⟨htext, hdenoted, hapart⟩, hvalues⟩
    rcases element_of_isText ((parse_iff_isText text _).mp ⟨h.1, rfl⟩) with
      ⟨element, helement, hvalue, hpadded⟩
    have hends : ¬EndsInDigit element.padded := by
      rw [hpadded]
      exact not_endsInDigit List.getLast?_concat (by decide)
    refine ⟨element :: elements, ⟨?_, ?_, ?_⟩, ?_⟩
    . rw [List.flatMap_cons, hpadded, ← htext]
      rfl
    . rw [List.forall_mem_cons]
      exact ⟨helement, hdenoted⟩
    . cases elements with
      | nil => exact .singleton element
      | cons next elements =>
        rw [List.isChain_cons_cons]
        exact ⟨fun h => absurd h hends, hapart⟩
    . rw [List.map_cons, List.map_cons, hvalue, hvalues]

theorem parseMulti_onLines {texts : List Str} (h : ∀ text ∈ texts, (parse F text).2 = [])
    : parseMulti F (onLines texts)
        = ⟨texts.map fun text => (parse F text).1, (onLines texts).length, []⟩ :=
  parseMulti_of_isStream (isStream_onLines h)

theorem parseMulti_onLines_two
    : let texts := [lit "[1]", lit " 23"]
      parseMulti Double.integers (onLines texts)
        = ⟨texts.map fun text => (parse Double.integers text).1, (onLines texts).length, []⟩ := by
  apply parseMulti_onLines
  decide +kernel

end Json11
