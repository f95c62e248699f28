import Mathlib.Data.List.Basic
import LedgerApp.Lemmas.Client

/-!
What the URL of the transactions says about the addresses it asks for. The addresses are joined with
"," and nothing in them is escaped, so a "," in an address reads like the end of the address.
-/

theorem List.splitOn_intercalate_flatMap {α : Type} [BEq α] [LawfulBEq α] (x : α)
    {xss : List (List α)} (h : xss ≠ [])
    : ([x].intercalate xss).splitOn x = xss.flatMap (List.splitOn x) := by
  induction xss with
  | nil => contradiction
  | cons xs xss ih =>
    cases xss with
    | nil => simp
    | cons next xss =>
      rw [List.intercalate_cons_cons, List.append_assoc, List.singleton_append,
        List.splitOn_append_cons_self, ih (by simp), List.flatMap_cons, List.flatMap_cons,
        List.flatMap_cons]

theorem List.not_mem_of_mem_splitOn {α : Type} [BEq α] [LawfulBEq α] {x : α} {xs ys : List α}
    (h : ys ∈ xs.splitOn x) : x ∉ ys := by
  induction xs generalizing ys with
  | nil =>
    rw [List.splitOn_nil, List.mem_singleton] at h
    simp [h]
  | cons y xs ih =>
    rw [List.splitOn_cons_eq_if_modifyHead] at h
    split at h
    . rcases List.mem_cons.mp h with h | h
      . simp [h]
      . exact ih h
    . next hne =>
      rcases List.exists_cons_of_ne_nil (List.splitOn_ne_nil x xs) with ⟨zs, zss, heq⟩
      rw [heq, List.modifyHead_cons] at h
      rcases List.mem_cons.mp h with h | h
      . have hzs : x ∉ zs := ih (by simp [heq])
        have hxy : x ≠ y := fun hxy => hne (by simp [hxy])
        simp [h, hzs, hxy]
      . exact ih (by simp [heq, h])

namespace LedgerApp

open Bytes

def comma : UInt8 := 0x2c

-- what is between `addresses/` and the final `/transactions`, split at ","
def queried (testnetMode : Bool) (url : Str) : Option (List Str) :=
  match url.dropPrefix? (base testnetMode ++ lit "addresses/") with
  | some rest =>
    match rest.dropSuffix? (lit "/transactions") with
    | some joined => some (joined.splitOn comma)
    | none => none
  | none => none

-- the URL of the transactions a call is about: the token is asked for on behalf of a continuation
-- that holds it
def Call.txUrl : Call → Option Str
  | .get _ _ _ { context := _, cb := .token closure } => some closure.callback.url
  | .get _ url _ { context := _, cb := .transactions _ } => some url
  | _ => none

def pieces (addresses : List Str) : List Str :=
  if addresses = [] then [[]] else addresses.flatMap (List.splitOn comma)

def Separable (addresses : List Str) : Prop :=
  addresses ≠ [] ∧ ∀ address ∈ addresses, comma ∉ address

theorem lit_comma : lit "," = [comma] := rfl

theorem splitOn_joinAddresses (addresses : List Str)
    : (joinAddresses addresses).splitOn comma = pieces addresses := by
  rw [joinAddresses_eq, lit_comma, pieces]
  split
  . next h =>
    rw [h]
    rfl
  . next h => exact List.splitOn_intercalate_flatMap comma h

theorem pieces_of_separable {addresses : List Str} (h : Separable addresses)
    : pieces addresses = addresses := by
  rw [← splitOn_joinAddresses, joinAddresses_eq, lit_comma]
  exact List.splitOn_intercalate comma h.2 h.1

theorem pieces_eq_iff {addresses : List Str}
    : pieces addresses = addresses ↔ Separable addresses := by
  constructor
  . intro h
    constructor
    . intro hnil
      rw [hnil] at h
      simp [pieces] at h
    . intro address haddress
      rw [← h, ← splitOn_joinAddresses] at haddress
      exact List.not_mem_of_mem_splitOn haddress
  . exact pieces_of_separable

theorem queried_append (testnetMode : Bool) (joined : Str)
    : queried testnetMode
          (base testnetMode ++ (lit "addresses/" ++ joined ++ lit "/transactions"))
        = some (joined.splitOn comma) := by
  have hprefix : (base testnetMode ++
        (lit "addresses/" ++ joined ++ lit "/transactions")).dropPrefix?
      (base testnetMode ++ lit "addresses/") = some (joined ++ lit "/transactions") := by
    rw [List.dropPrefix?_eq_some_iff]
    refine ⟨base testnetMode ++ lit "addresses/", ?_, by simp⟩
    simp only [List.append_assoc]
  have hsuffix : (joined ++ lit "/transactions").dropSuffix? (lit "/transactions")
      = some joined := by
    rw [List.dropSuffix?_eq_some_iff]
    exact ⟨lit "/transactions", rfl, by simp⟩
  simp only [queried, hprefix, hsuffix]

namespace Start

theorem queried_txUrl (start : Start)
    : queried start.testnetMode start.txUrl = some (pieces start.addresses) := by
  rw [txUrl, queried_append, splitOn_joinAddresses]

theorem testnetMode_of_txUrl {start start' : Start} (h : start.txUrl = start'.txUrl)
    : start.testnetMode = start'.testnetMode := by
  have hscheme : ∀ testnetMode : Bool, ∀ rest : Str,
      (base testnetMode ++ rest)[4]? = some (if testnetMode then 0x3a else 0x73) := by
    intro testnetMode rest
    cases testnetMode with
    | false => rfl
    | true => rfl
  have hfour : start.txUrl[4]? = start'.txUrl[4]? := by rw [h]
  unfold txUrl at hfour
  rw [hscheme, hscheme] at hfour
  generalize start.testnetMode = mode at hfour
  generalize start'.testnetMode = mode' at hfour
  cases mode with
  | false =>
    cases mode' with
    | false => rfl
    | true => simp at hfour
  | true =>
    cases mode' with
    | false => simp at hfour
    | true => rfl

theorem txUrl_of_call {start : Start} {call : Call} (h : call ∈ start.call start.testnetMode)
    : call.txUrl = some start.txUrl := by
  rcases mem_call h with ⟨impl, rfl⟩
  rfl

theorem txUrl_of_txTask {start : Start} {token : Str} {cell : Cell} {call : Call}
    (h : call ∈ (start.txTask token).call cell) : call.txUrl = some start.txUrl := by
  rw [txTask_call] at h
  split at h
  . rw [List.mem_singleton.mp h]
    rfl
  . simp at h

-- what `start` makes the library do with a URL of transactions, with any token
def Asks (start : Start) (url : Str) : Prop :=
  ∃ call : Call, call.txUrl = some url ∧
    (call ∈ start.call start.testnetMode ∨ ∃ token cell, call ∈ (start.txTask token).call cell)

theorem Asks.eq {start : Start} {url : Str} (h : start.Asks url) : url = start.txUrl := by
  rcases h with ⟨call, hurl, h | ⟨token, cell, h⟩⟩
  . rw [txUrl_of_call h, Option.some.injEq] at hurl
    exact hurl.symm
  . rw [txUrl_of_txTask h, Option.some.injEq] at hurl
    exact hurl.symm

end Start

theorem url_determines_query {start : Start} {url : Str} (h : start.Asks url)
    : queried start.testnetMode url = some (pieces start.addresses)
        ∧ (queried start.testnetMode url = some start.addresses ↔ Separable start.addresses)
        ∧ ∀ start' : Start, start'.Asks url →
            start.testnetMode = start'.testnetMode
              ∧ pieces start.addresses = pieces start'.addresses
              ∧ (Separable start.addresses → Separable start'.addresses →
                  start.addresses = start'.addresses) := by
  rw [h.eq]
  refine ⟨start.queried_txUrl, ?_, ?_⟩
  . rw [start.queried_txUrl, Option.some.injEq]
    exact pieces_eq_iff
  . intro start' h'
    have hmode : start.testnetMode = start'.testnetMode := Start.testnetMode_of_txUrl h'.eq
    have hpieces : pieces start.addresses = pieces start'.addresses := by
      rw [← Option.some.injEq, ← start.queried_txUrl, ← start'.queried_txUrl, hmode, h'.eq]
    refine ⟨hmode, hpieces, ?_⟩
    intro hs hs'
    rw [← pieces_of_separable hs, ← pieces_of_separable hs', hpieces]

def askFor (addresses : List Str) : Start where
  handle := 0
  observer := 0
  addresses := addresses
  options := ⟨0⟩
  response := 0
  http := { context := some 0, impl := some 0 }
  mainContext := some 0
  backContext := some 1

theorem askFor_asks (addresses : List Str) : (askFor addresses).Asks (askFor addresses).txUrl :=
  ⟨.get 0 (askFor addresses).tokenUrl (some []) (askFor addresses).tokenCallback, rfl, .inl (by
    rw [Start.call_eq]
    exact List.mem_singleton.mpr rfl)⟩

theorem url_determines_query_pair
    : queried false (askFor [lit "a", lit "b"]).txUrl = some [lit "a", lit "b"] :=
  (url_determines_query (askFor_asks [lit "a", lit "b"])).2.1.mpr (by
    constructor
    . exact List.cons_ne_nil _ _
    . decide)

theorem comma_splits_address
    : ¬∀ start url, Start.Asks start url →
        queried start.testnetMode url = some start.addresses := by
  intro h
  have hquery := h _ _ (askFor_asks [lit "a,b"])
  rw [Start.queried_txUrl] at hquery
  revert hquery
  decide

end LedgerApp
