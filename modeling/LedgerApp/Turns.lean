/-!
Pieces of work of which at most one is not empty. The order in which they are listed does not matter
then. An account of such work adds what it has brought about so far to what it is still going to
bring about.
-/

section

variable {α β : Type}

def OneAtMost (items : List (List α)) : Prop :=
  items.Pairwise fun x y => x = [] ∨ y = []

namespace OneAtMost

variable {items items' done : List (List α)} {x : List α}

theorem perm (h : OneAtMost items) (hp : items.Perm items') : OneAtMost items' := by
  unfold OneAtMost at h ⊢
  rw [← hp.pairwise_iff]
  . exact h
  . intro x y hxy
    exact hxy.symm

theorem flatten_perm (h : OneAtMost items) (hp : items.Perm items')
    : items.flatten = items'.flatten := by
  induction hp with
  | nil => rfl
  | cons x hp ih =>
    rw [List.flatten_cons, List.flatten_cons, ih (List.pairwise_cons.mp h).2]
  | swap x y items =>
    have hxy := (List.pairwise_cons.mp h).1 x (by simp)
    rcases hxy with hxy | hxy
    . simp [hxy]
    . simp [hxy]
  | trans hp _ ih ih' => rw [ih h, ih' (h.perm hp)]

theorem tail (h : OneAtMost (x :: items)) : OneAtMost items :=
  (List.pairwise_cons.mp h).2

theorem replace (h : OneAtMost (x :: items)) (hdone : OneAtMost done)
    (hempty : x = [] → ∀ y ∈ done, y = []) : OneAtMost (done ++ items) := by
  unfold OneAtMost
  rw [List.pairwise_append]
  refine ⟨hdone, h.tail, ?_⟩
  intro y hy z hz
  rcases (List.pairwise_cons.mp h).1 z hz with hx | hz
  . exact .inl (hempty hx y hy)
  . exact .inr hz

end OneAtMost

structure Account (value : α → List β) (total past : List β) (items : List (List α)) : Prop where
  single : OneAtMost items
  total_eq : past ++ items.flatten.flatMap value = total

namespace Account

variable {value : α → List β} {total past shown : List β} {items items' rest done : List (List α)}
variable {x : List α}

theorem perm (h : Account value total past items) (hp : items.Perm items')
    : Account value total past items' where
  single := h.single.perm hp
  total_eq := by rw [← h.single.flatten_perm hp, h.total_eq]

-- the work `x` is taken up, shows something and leaves the pieces `done`
theorem step (h : Account value total past (x :: rest)) (hdone : OneAtMost done)
    (hempty : x = [] → ∀ y ∈ done, y = [])
    (hvalue : shown ++ done.flatten.flatMap value = x.flatMap value)
    : Account value total (past ++ shown) (done ++ rest) where
  single := h.single.replace hdone hempty
  total_eq := by
    rw [← h.total_eq, List.flatten_append, List.flatMap_append, List.flatten_cons,
      List.flatMap_append, ← hvalue]
    simp

theorem skip (h : Account value total past ([] :: items))
    : Account value total past items where
  single := h.single.tail
  total_eq := by
    rw [← h.total_eq]
    simp

theorem new (x : List α) : Account value (x.flatMap value) [] [x] where
  single := List.pairwise_singleton _ _
  total_eq := by simp

theorem of_nil (h : Account value total past []) : past = total := by
  rw [← h.total_eq]
  simp

end Account
end
