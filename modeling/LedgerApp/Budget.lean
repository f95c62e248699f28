import Mathlib.Algebra.GroupWithZero.Nat
import LedgerApp.Transition

/-!
Systems whose steps are paid for in advance. A step costs something and may bring in what later
steps spend, so that what a run costs is bounded by what it was given. Where each step that is
possible costs something and brings in nothing, the system comes to rest.
-/

/-- What one of several items has left is exchanged. -/
theorem sum_map_set {β : Type} {f : β → Nat} {items : List β} {index : Nat} {x y : β}
    (h : items[index]? = some x)
    : ((items.set index y).map f).sum + f x = (items.map f).sum + f y := by
  induction items generalizing index with
  | nil => simp at h
  | cons item items ih =>
    cases index with
    | zero =>
      rw [List.getElem?_cons_zero, Option.some.injEq] at h
      rw [h, List.set_cons_zero, List.map_cons, List.map_cons, List.sum_cons, List.sum_cons]
      omega
    | succ index =>
      rw [List.getElem?_cons_succ] at h
      have := ih h
      rw [List.set_cons_succ, List.map_cons, List.map_cons, List.sum_cons, List.sum_cons]
      omega

namespace System

variable {σ α : Type}

section

variable (sys : System σ α)

-- what a run costs, or brings in
def total (f : σ → α → Nat) : σ → List α → Nat
  | _, [] => 0
  | s, a :: as =>
    f s a + match sys.step s a with
      | some t => total f t as
      | none => 0

/-- `left` is what a state has left to spend. -/
structure Budget (ok : σ → α → Prop) where
  left : σ → Nat
  cost : σ → α → Nat
  gain : σ → α → Nat
  paid : ∀ s a t, ok s a → sys.step s a = some t → cost s a + left t ≤ left s + gain s a

end

variable {sys : System σ α} {ok work : σ → α → Prop} {s t u : σ} {as : List α}

theorem total_cons {f : σ → α → Nat} {a : α} (h : sys.step s a = some t)
    : sys.total f s (a :: as) = f s a + sys.total f t as := by
  rw [total, h]

theorem length_le_total {f : σ → α → Nat} (hwork : sys.Along work s as)
    (hexec : sys.exec s as = some t)
    (hf : ∀ s a t, work s a → sys.step s a = some t → 1 ≤ f s a)
    : as.length ≤ sys.total f s as := by
  induction as generalizing s with
  | nil => simp
  | cons a as ih =>
    rcases exec_cons.mp hexec with ⟨u, hu, hlater⟩
    have hfirst := hf s a u hwork.1 hu
    have hrest := ih (hwork.2 u hu) hlater
    rw [total_cons hu, List.length_cons]
    omega

theorem total_eq_zero {f : σ → α → Nat} (hwork : sys.Along work s as)
    (hf : ∀ s a, work s a → f s a = 0) : sys.total f s as = 0 := by
  induction as generalizing s with
  | nil => rfl
  | cons a as ih =>
    rw [total, hf s a hwork.1]
    split
    . next u hu => rw [ih (hwork.2 u hu)]
    . rfl

namespace Budget

variable (b : sys.Budget ok)

theorem total_le (hok : sys.Along ok s as) (hexec : sys.exec s as = some t)
    : sys.total b.cost s as + b.left t ≤ b.left s + sys.total b.gain s as := by
  induction as generalizing s with
  | nil =>
    simp only [exec, Option.some.injEq] at hexec
    rw [hexec]
    simp [total]
  | cons a as ih =>
    rcases exec_cons.mp hexec with ⟨u, hu, hlater⟩
    have hfirst := b.paid s a u hok.1 hu
    have hrest := ih (hok.2 u hu) hlater
    rw [total_cons hu, total_cons hu]
    omega

/-- Steps that cost something and bring in nothing. -/
structure Spends (work : σ → α → Prop) : Prop where
  ok : ∀ s a, work s a → ok s a
  cost : ∀ s a t, work s a → sys.step s a = some t → 1 ≤ b.cost s a
  gain : ∀ s a, work s a → b.gain s a = 0

variable {b}

theorem Spends.length_le (h : b.Spends work) (hwork : sys.Along work s as)
    (hexec : sys.exec s as = some t) : as.length + b.left t ≤ b.left s := by
  have hok : sys.Along ok s as := hwork.mono h.ok
  have htotal := b.total_le hok hexec
  have hlength := length_le_total hwork hexec h.cost
  rw [total_eq_zero hwork h.gain] at htotal
  omega

/-- A state in which work can be done unless it is at rest comes to rest. -/
theorem Spends.comes_to_rest (h : b.Spends work) (I rest : σ → Prop)
    (hI : ∀ s a t, I s → work s a → sys.step s a = some t → I t)
    (hnext : ∀ s, I s → ¬rest s → ∃ a t, work s a ∧ sys.step s a = some t) (hs : I s)
    : ∃ as t, sys.exec s as = some t ∧ sys.Along work s as ∧ I t ∧ rest t := by
  induction hleft : b.left s using Nat.strongRecOn generalizing s with
  | _ n ih =>
    by_cases hrest : rest s
    . exact ⟨[], s, rfl, trivial, hs, hrest⟩
    . rcases hnext s hs hrest with ⟨a, u, ha, hu⟩
      have hpaid := b.paid s a u (h.ok s a ha) hu
      have hcost := h.cost s a u ha hu
      rw [h.gain s a ha] at hpaid
      have hlt : b.left u < n := by omega
      rcases ih _ hlt (hI s a u hs ha hu) rfl with ⟨as, t, hexec, halong, ht, hrest⟩
      refine ⟨a :: as, t, exec_cons.mpr ⟨u, hu, hexec⟩, ⟨ha, ?_⟩, ht, hrest⟩
      intro v hv
      rw [Option.mem_def, hu, Option.some.injEq] at hv
      rw [← hv]
      exact halong

end Budget
end System
