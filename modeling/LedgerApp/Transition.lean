/-!
Systems that take one step after another, and the rules for what their runs preserve. The steps of a
run may be restricted by a guard on the state before the step and the action.
-/

structure System (σ α : Type) where
  init : σ
  step : σ → α → Option σ

namespace System

variable {σ τ α β : Type} (sys : System σ α)

/-- A run, all of whose steps pass the guard `ok`. -/
inductive Steps (ok : σ → α → Prop) : σ → σ → Prop
  | refl (s : σ) : Steps ok s s
  | step {s t u : σ} {a : α} (run : Steps ok s t) (hok : ok t a) (h : sys.step t a = some u)
    : Steps ok s u

def Reachable (ok : σ → α → Prop) (s : σ) : Prop :=
  sys.Steps ok sys.init s

def free (_ : σ) (_ : α) : Prop :=
  True

variable {sys} {ok ok' : σ → α → Prop} {s t u : σ}

namespace Steps

theorem trans (h : sys.Steps ok s t) (h' : sys.Steps ok t u) : sys.Steps ok s u := by
  induction h' with
  | refl => exact h
  | step _ hok hstep ih => exact .step ih hok hstep

theorem invariant {I : σ → Prop} (h : sys.Steps ok s t) (hs : I s)
    (hstep : ∀ t a u, I t → ok t a → sys.step t a = some u → I u) : I t := by
  induction h with
  | refl => exact hs
  | step _ hok hu ih => exact hstep _ _ _ ih hok hu

theorem mono (h : sys.Steps ok s t) (himp : ∀ s a, ok s a → ok' s a) : sys.Steps ok' s t := by
  induction h with
  | refl => exact .refl _
  | step _ hok hstep ih => exact .step ih (himp _ _ hok) hstep

end Steps

theorem Reachable.free (h : sys.Reachable ok s) : sys.Reachable free s :=
  h.mono fun _ _ _ => trivial

theorem Reachable.trans (h : sys.Reachable ok s) (h' : sys.Steps ok s t) : sys.Reachable ok t :=
  Steps.trans h h'

theorem Reachable.invariant {I : σ → Prop} (h : sys.Reachable ok s) (hinit : I sys.init)
    (hstep : ∀ t a u, sys.Reachable ok t → I t → ok t a → sys.step t a = some u → I u) : I s := by
  have hboth : sys.Reachable ok s ∧ I s := by
    apply Steps.invariant h ⟨.refl _, hinit⟩
    intro t a u ht hok hu
    exact ⟨.step ht.1 hok hu, hstep t a u ht.1 ht.2 hok hu⟩
  exact hboth.2

variable (sys)

def exec : σ → List α → Option σ
  | s, [] => some s
  | s, a :: as =>
    match sys.step s a with
    | some t => exec t as
    | none => none

def Along (ok : σ → α → Prop) : σ → List α → Prop
  | _, [] => True
  | s, a :: as => ok s a ∧ ∀ t ∈ sys.step s a, Along ok t as

variable {sys}

theorem exec_cons {a : α} {as : List α}
    : sys.exec s (a :: as) = some t ↔ ∃ u, sys.step s a = some u ∧ sys.exec u as = some t := by
  rw [exec]
  split
  . next u hu => simp [hu]
  . next hnone => simp [hnone]

theorem exec_singleton (a : α) : sys.exec s [a] = sys.step s a := by
  simp only [exec]
  split
  . next u hu => rw [hu]
  . next hnone => rw [hnone]

theorem steps_of_exec {as : List α} (h : sys.exec s as = some t) (hok : sys.Along ok s as)
    : sys.Steps ok s t := by
  induction as generalizing s with
  | nil =>
    simp only [exec, Option.some.injEq] at h
    rw [h]
    exact .refl t
  | cons a as ih =>
    rcases exec_cons.mp h with ⟨u, hu, hlater⟩
    have hstep : sys.Steps ok s u := .step (.refl s) hok.1 hu
    exact hstep.trans (ih hlater (hok.2 u hu))

theorem reachable_exec {as : List α} (h : (sys.exec sys.init as).isSome = true)
    (hok : sys.Along ok sys.init as) : sys.Reachable ok ((sys.exec sys.init as).get h) := by
  apply steps_of_exec _ hok
  simp

instance decidableAlong [∀ s a, Decidable (ok s a)]
    : (s : σ) → (as : List α) → Decidable (sys.Along ok s as)
  | _, [] => isTrue trivial
  | s, a :: as =>
    match h : sys.step s a with
    | some t =>
      have := decidableAlong t as
      decidable_of_iff (ok s a ∧ sys.Along ok t as) (by simp [Along, h])
    | none => decidable_of_iff (ok s a) (by simp [Along, h])

theorem Along.and {ok'' : σ → α → Prop} {as : List α} (h : sys.Along ok s as)
    (h' : sys.Along ok' s as) (himp : ∀ s a, ok s a → ok' s a → ok'' s a)
    : sys.Along ok'' s as := by
  induction as generalizing s with
  | nil => trivial
  | cons a as ih => exact ⟨himp s a h.1 h'.1, fun t ht => ih (h.2 t ht) (h'.2 t ht)⟩

theorem Along.mono {as : List α} (h : sys.Along ok s as) (himp : ∀ s a, ok s a → ok' s a)
    : sys.Along ok' s as :=
  h.and h fun s a hok _ => himp s a hok

theorem along_of_forall {as : List α} (h : ∀ a ∈ as, ∀ s, ok s a) : sys.Along ok s as := by
  induction as generalizing s with
  | nil => trivial
  | cons a as ih =>
    refine ⟨h a (by simp) s, ?_⟩
    intro t _
    apply ih
    intro b hb
    exact h b (by simp [hb])

theorem along_free (s : σ) (as : List α) : sys.Along free s as := by
  apply along_of_forall
  intro a _ t
  trivial

/-- A step of `sys` is matched by a run of `sys'`. -/
def Simulates (sys : System σ α) (sys' : System τ β) (ok : σ → α → Prop) (R : σ → τ → Prop)
    : Prop :=
  R sys.init sys'.init ∧
    ∀ s a t s', R s s' → ok s a → sys.step s a = some t → ∃ t', sys'.Steps free s' t' ∧ R t t'

theorem Simulates.reachable {sys' : System τ β} {R : σ → τ → Prop}
    (hsim : Simulates sys sys' ok R) (h : sys.Reachable ok s)
    : ∃ s', sys'.Reachable free s' ∧ R s s' := by
  apply h.invariant
  . exact ⟨sys'.init, .refl _, hsim.1⟩
  . intro t a u _ ih hok hstep
    rcases ih with ⟨t', ht', hR⟩
    rcases hsim.2 t a u t' hR hok hstep with ⟨u', hu', hR'⟩
    exact ⟨u', ht'.trans hu', hR'⟩

end System
