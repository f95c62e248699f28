/-!
Lists whose entries have owners, and the part of such a list that belongs to one owner. Entries that
are removed or added on behalf of one owner leave the parts of all others as they are.
-/

section

variable {α ι : Type} [DecidableEq ι] (owner : α → ι) {i j : ι} {l l' : List α}

def owned (i : ι) (l : List α) : List α :=
  l.filter fun a => owner a = i

variable {owner}

theorem mem_owned {a : α} : a ∈ owned owner i l ↔ a ∈ l ∧ owner a = i := by
  simp [owned]

@[simp]
theorem owned_nil : owned owner i [] = [] := rfl

@[simp]
theorem owned_append : owned owner i (l ++ l') = owned owner i l ++ owned owner i l' := by
  simp [owned]

theorem owned_self (h : ∀ a ∈ l, owner a = i) : owned owner i l = l := by
  unfold owned
  rw [List.filter_eq_self]
  intro a ha
  simp [h a ha]

theorem owned_eq_nil (h : ∀ a ∈ l, owner a ≠ i) : owned owner i l = [] := by
  unfold owned
  rw [List.filter_eq_nil_iff]
  intro a ha
  simp [h a ha]

theorem owned_other (h : ∀ a ∈ l, owner a = j) (hne : j ≠ i) : owned owner i l = [] := by
  apply owned_eq_nil
  intro a ha
  rw [h a ha]
  exact hne

theorem owned_split {a : α} (h : owner a = i) (l l' : List α)
    : owned owner i (l ++ a :: l') = owned owner i l ++ a :: owned owner i l' := by
  simp [owned, h]

theorem eraseIdx_split {n : Nat} {a : α} (h : l[n]? = some a)
    : ∃ pre post, l = pre ++ a :: post ∧ pre.length = n ∧ l.eraseIdx n = pre ++ post := by
  rcases List.getElem?_eq_some_iff.mp h with ⟨hlt, hget⟩
  refine ⟨l.take n, l.drop (n + 1), ?_, ?_, ?_⟩
  . rw [← hget, List.getElem_cons_drop, List.take_append_drop]
  . rw [List.length_take]
    omega
  . rw [List.eraseIdx_eq_take_drop_succ]

theorem owned_eraseIdx_other {n : Nat} {a : α} (h : l[n]? = some a) (hne : owner a ≠ i)
    : owned owner i (l.eraseIdx n) = owned owner i l := by
  rcases eraseIdx_split h with ⟨pre, post, hl, _, herase⟩
  rw [herase, hl]
  simp [owned, hne]

theorem owned_eraseIdx_perm {n : Nat} {a : α} (h : l[n]? = some a)
    : (owned owner (owner a) l).Perm (a :: owned owner (owner a) (l.eraseIdx n)) := by
  rcases eraseIdx_split h with ⟨pre, post, hl, _, herase⟩
  rw [herase, hl, owned_split rfl, owned_append]
  exact List.perm_middle

theorem owned_eraseIdx_self {n : Nat} {a b : α} (h : l[n]? = some a) (ha : owner a = i)
    (hsingle : owned owner i l = [b]) : a = b ∧ owned owner i (l.eraseIdx n) = [] := by
  rcases eraseIdx_split h with ⟨pre, post, hl, _, herase⟩
  rw [hl] at hsingle
  rw [herase]
  simp only [owned, List.filter_append, List.filter_cons, ha, decide_true, if_true] at hsingle ⊢
  rw [List.append_eq_singleton_iff] at hsingle
  rcases hsingle with ⟨hpre, hpost⟩ | ⟨hpre, hpost⟩
  . simp only [List.cons.injEq] at hpost
    exact ⟨hpost.1, by rw [hpre, hpost.2]; rfl⟩
  . simp at hpost

end
