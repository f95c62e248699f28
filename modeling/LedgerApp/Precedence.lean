/-!
Causality in a list of events: each event of one kind has an event of another kind before it.
-/

section

variable {α : Type} (cause effect : α → Prop) {a : α} {l l' : List α}

def Precedes : List α → Prop
  | [] => True
  | a :: l => ¬effect a ∧ (cause a ∨ Precedes l)

variable {cause effect}

@[simp]
theorem precedes_nil : Precedes cause effect [] :=
  trivial

@[simp]
theorem precedes_cons
    : Precedes cause effect (a :: l) ↔ ¬effect a ∧ (cause a ∨ Precedes cause effect l) :=
  Iff.rfl

@[simp]
theorem precedes_append : Precedes cause effect (l ++ l') ↔
    Precedes cause effect l ∧ ((∃ a ∈ l, cause a) ∨ Precedes cause effect l') := by
  induction l with
  | nil => simp
  | cons a l ih =>
    simp only [List.cons_append, precedes_cons, ih, List.mem_cons, exists_eq_or_imp]
    grind

theorem Precedes.cause_before (h : Precedes cause effect l) {pre post : List α}
    (hl : l = pre ++ a :: post) (ha : effect a) : ∃ b ∈ pre, cause b := by
  rw [hl, precedes_append] at h
  rcases h.2 with hcause | hnone
  . exact hcause
  . exact absurd ha hnone.1

end
