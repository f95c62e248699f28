import Mathlib.Logic.Function.Basic
import LedgerApp.Transition

/-!
Proxies that are made on demand, one for each object at a time. A proxy is known by the number of
proxies that were made before it, and it stands for its object until the object is forgotten.
-/

structure Identity (Object : Type) where
  current : Object → Option Nat
  made : Nat
  answers : List (Object × Nat)

namespace Identity

variable {Object : Type} [DecidableEq Object]

inductive Use (Object : Type) where
  | get (object : Object)
  | forget (object : Object)

def next (t : Identity Object) : Use Object → Identity Object
  | .get object =>
    match t.current object with
    | some proxy => { t with answers := t.answers ++ [(object, proxy)] }
    | none =>
      { current := Function.update t.current object (some t.made)
        made := t.made + 1
        answers := t.answers ++ [(object, t.made)] }
  | .forget object => { t with current := Function.update t.current object none }

variable {t : Identity Object} {object : Object}

theorem next_get_some {proxy : Nat} (h : t.current object = some proxy)
    : t.next (.get object) = { t with answers := t.answers ++ [(object, proxy)] } := by
  simp only [next, h]

theorem next_get_none (h : t.current object = none)
    : t.next (.get object) =
        { current := Function.update t.current object (some t.made)
          made := t.made + 1
          answers := t.answers ++ [(object, t.made)] } := by
  simp only [next, h]

def identity (Object : Type) [DecidableEq Object] : System (Identity Object) (Use Object) where
  init := ⟨fun _ => none, 0, []⟩
  step t use := some (t.next use)

theorem lt_made {ok : Identity Object → Use Object → Prop} (h : (identity Object).Reachable ok t)
    : (∀ object proxy, t.current object = some proxy → proxy < t.made)
        ∧ ∀ answer ∈ t.answers, answer.2 < t.made := by
  apply h.invariant
  . simp [identity]
  . rintro t use u _ ⟨hcurrent, hanswers⟩ _ hstep
    rw [← Option.some.inj hstep]
    cases use with
    | get object =>
      cases hobject : t.current object with
      | some proxy =>
        rw [next_get_some hobject]
        refine ⟨hcurrent, ?_⟩
        simp only [List.mem_append, List.mem_singleton]
        rintro answer (hanswer | rfl)
        . exact hanswers answer hanswer
        . exact hcurrent object proxy hobject
      | none =>
        rw [next_get_none hobject]
        refine ⟨?_, ?_⟩
        . intro other proxy
          dsimp only
          by_cases hother : other = object
          . rw [hother, Function.update_self, Option.some.injEq]
            omega
          . rw [Function.update_of_ne hother]
            intro hproxy
            have := hcurrent other proxy hproxy
            omega
        . simp only [List.mem_append, List.mem_singleton]
          rintro answer (hanswer | rfl)
          . have := hanswers answer hanswer
            omega
          . exact Nat.lt_succ_self t.made
    | forget object =>
      refine ⟨?_, hanswers⟩
      intro other proxy
      by_cases hother : other = object
      . simp [next, hother]
      . simp only [next, Function.update_of_ne hother]
        exact hcurrent other proxy

end Identity
