import LedgerApp.Json11.Lemmas.RoundTrip
import LedgerApp.Json11.Lemmas.Total

/-!
Texts joined by a separator: a list of texts that read as values, with a comma and white space
between two of them and brackets around, reads as the array of these values.
-/

namespace Json11

open Bytes Outcome

variable {F : Double}

def Reads (value : Str → Except Str (Json F × Str)) (t : Str) (v : Json F) : Prop :=
  ∀ x, Delimited x → ∃ v', value (t ++ x) = .ok (v', x) ∧ Json.equals v' v = true

def StartsValue (t : Str) : Prop :=
  ∃ c s, t = c :: s ∧ isSpace c = false ∧ c ≠ 0x5d

def IsSeparator (sep : Str) : Prop :=
  ∃ ws, sep = 0x2c :: ws ∧ ∀ c ∈ ws, isSpace c = true

theorem getNextToken_cons {c : UInt8} (s : Str) (hc : isSpace c = false)
    : getNextToken (c :: s) = .ok (c, s) := by
  rw [getNextToken_eq_ok, consumeWhitespace]
  simp [hc]

theorem getNextToken_spaces {ws : Str} (h : ∀ c ∈ ws, isSpace c = true) (s : Str)
    : getNextToken (ws ++ s) = getNextToken s := by
  have : consumeWhitespace (ws ++ s) = consumeWhitespace s := by
    unfold consumeWhitespace
    rw [List.dropWhile_append_of_pos h]
  unfold getNextToken
  rw [this]

theorem delimited_comma (x : Str) : Delimited (0x2c :: x) := by
  simp [Delimited, isDigit, inRange]

theorem delimited_bracket (x : Str) : Delimited (0x5d :: x) := by
  simp [Delimited, isDigit, inRange]

theorem delimited_brace (x : Str) : Delimited (0x7d :: x) := by
  simp [Delimited, isDigit, inRange]

theorem delimited_nil : Delimited [] := by
  simp [Delimited, isDigit, inRange]

theorem length_le_intercalate (sep : Str) {texts : List Str} (h : ∀ t ∈ texts, t ≠ [])
    : texts.length ≤ (sep.intercalate texts).length := by
  induction texts with
  | nil => simp
  | cons t texts ih =>
    have ht := List.length_pos_iff.mpr (h t (by simp))
    have htail : ∀ u ∈ texts, u ≠ [] := fun u hu => h u (by simp [hu])
    cases texts with
    | nil =>
      simp only [List.intercalate_singleton, List.length_cons, List.length_nil]
      omega
    | cons u texts =>
      have := ih htail
      simp only [List.intercalate_cons_cons, List.length_append, List.length_cons] at this ⊢
      omega

theorem intercalate_cons_head (sep : Str) (c : UInt8) (s : Str) (texts : List Str)
    : ∃ y, sep.intercalate ((c :: s) :: texts) = c :: y := by
  cases texts with
  | nil => exact ⟨s, by simp⟩
  | cons t texts => exact ⟨s ++ (sep ++ sep.intercalate (t :: texts)), by simp⟩

theorem parseElements_intercalate {value : Str → Except Str (Json F × Str)} {sep : Str}
    (hsep : IsSeparator sep) {texts : List Str} {items : List (Json F)}
    (h : List.Forall₂ (fun t v => Reads value t v ∧ StartsValue t) texts items)
    (hne : texts ≠ []) (x : Str)
    : ∀ (n : Nat) (data : List (Json F)), texts.length ≤ n →
        ∃ items', parseElements value n (sep.intercalate texts ++ 0x5d :: x) data
              = .ok (.array (data ++ items'), x)
            ∧ List.Forall₂ (fun v' v => Json.equals v' v = true) items' items := by
  induction h with
  | nil => contradiction
  | @cons t v texts items ht htexts ih =>
    intro n data hn
    cases n with
    | zero => simp at hn
    | succ n =>
      cases htexts with
      | nil =>
        rcases ht.1 (0x5d :: x) (delimited_bracket x) with ⟨v', hv, heq⟩
        refine ⟨[v'], ?_, .cons heq .nil⟩
        rw [List.intercalate_singleton]
        unfold parseElements
        rw [hv, ok_bind]
        dsimp only
        rw [getNextToken_cons _ (by decide), ok_bind]
        simp
      | @cons u w texts items hu htexts =>
        rcases hsep with ⟨ws, rfl, hws⟩
        rcases hu.2 with ⟨c, s, rfl, hc, _⟩
        rcases intercalate_cons_head (0x2c :: ws) c s texts with ⟨y, hy⟩
        have hdelim := delimited_comma (ws ++ (c :: y ++ 0x5d :: x))
        rcases ht.1 _ hdelim with ⟨v', hv, heq⟩
        rcases ih (by simp) n (data ++ [v']) (by simpa using hn) with ⟨items', hitems, hall⟩
        refine ⟨v' :: items', ?_, .cons heq hall⟩
        rw [hy] at hitems
        rw [List.intercalate_cons_cons, hy]
        simp only [List.append_assoc, List.cons_append] at hv ⊢
        unfold parseElements
        rw [hv, ok_bind]
        dsimp only
        rw [getNextToken_cons _ (by decide), ok_bind]
        dsimp only
        rw [if_neg (by decide), if_neg (by decide), getNextToken_spaces hws]
        rw [getNextToken_cons _ hc, ok_bind]
        simpa using hitems

theorem parseJson_bracket (levels : Nat) (s : Str) : parseJson F (levels + 1) (0x5b :: s)
    = (do
        let (ch, s) ← getNextToken s
        if ch = 0x5d then
          return (.array [], s)
        else
          parseElements (parseJson F levels) (s.length + 1) (ch :: s) []) := by
  rw [parseJson, getNextToken_cons _ (by decide), ok_bind]
  dsimp only
  rw [if_neg (by decide), if_neg (by decide), if_neg (by decide), if_neg (by decide),
    if_neg (by decide), if_neg (by decide), if_pos (by rfl)]

theorem ne_nil_of_startsValue {α : Type} {P : Str → α → Prop} {texts : List Str} {items : List α}
    (h : List.Forall₂ (fun t v => P t v ∧ StartsValue t) texts items) : ∀ t ∈ texts, t ≠ [] := by
  induction h with
  | nil => simp
  | cons ht _ ih =>
    simp only [List.mem_cons, forall_eq_or_imp]
    refine ⟨?_, ih⟩
    rcases ht.2 with ⟨c, s, hs, _⟩
    rw [hs]
    simp

theorem parseJson_array {levels : Nat} {sep : Str} (hsep : IsSeparator sep) {texts : List Str}
    {items : List (Json F)}
    (h : List.Forall₂ (fun t v => Reads (parseJson F levels) t v ∧ StartsValue t) texts items)
    (x : Str)
    : ∃ items', parseJson F (levels + 1) (0x5b :: sep.intercalate texts ++ 0x5d :: x)
          = .ok (.array items', x)
        ∧ List.Forall₂ (fun v' v => Json.equals v' v = true) items' items := by
  have hall := ne_nil_of_startsValue h
  rw [List.cons_append, parseJson_bracket]
  cases h with
  | nil =>
    refine ⟨[], ?_, .nil⟩
    rw [List.intercalate_nil, List.nil_append, getNextToken_cons _ (by decide), ok_bind]
    rfl
  | @cons t v texts items ht htexts =>
    rcases ht.2 with ⟨c, s, rfl, hc, hbracket⟩
    have hlen := length_le_intercalate sep hall
    have hparse := parseElements_intercalate hsep (.cons ht htexts) (by simp) x
    rcases intercalate_cons_head sep c s texts with ⟨y, hy⟩
    rw [hy] at hlen hparse ⊢
    rcases hparse ((y ++ 0x5d :: x).length + 1) [] (by simp at hlen ⊢; omega) with
      ⟨items', hitems, hequal⟩
    refine ⟨items', ?_, hequal⟩
    rw [List.cons_append, getNextToken_cons _ hc, ok_bind]
    dsimp only
    rw [if_neg hbracket]
    simpa using hitems

end Json11
