import Mathlib.Data.List.Basic
import Mathlib.Data.List.Infix
import Mathlib.Data.List.Nodup

/-!
Objects that are made on demand and registered under a name, and sessions: sequences of calls that
are answered one after another. An object is known by its place in the order of creation.
-/

structure Registry (κ : Type) where
  names : List κ
  nodup : names.Nodup

namespace Registry

variable {κ : Type} {r r' : Registry κ} {name name' : κ} {object : Nat}

instance : LE (Registry κ) where
  le r r' := r.names <+: r'.names

theorem le_refl (r : Registry κ) : r ≤ r :=
  List.prefix_refl r.names

theorem le_trans {r'' : Registry κ} (h : r ≤ r') (h' : r' ≤ r'') : r ≤ r'' :=
  List.IsPrefix.trans h h'

def empty : Registry κ where
  names := []
  nodup := List.nodup_nil

variable [DecidableEq κ]

def find? (r : Registry κ) (name : κ) : Option Nat :=
  r.names.idxOf? name

def insert (r : Registry κ) (name : κ) : Registry κ :=
  if h : name ∈ r.names then
    r
  else
    { names := r.names ++ [name]
      nodup := by
        rw [← List.concat_eq_append]
        exact r.nodup.concat h }

theorem find?_eq_none : r.find? name = none ↔ name ∉ r.names :=
  List.idxOf?_eq_none_iff

theorem find?_eq_some
    : r.find? name = some object ↔ name ∈ r.names ∧ r.names.idxOf name = object := by
  unfold find?
  constructor
  . intro h
    have hmem : name ∈ r.names := by
      by_contra hne
      rw [List.idxOf?_eq_none_iff.mpr hne] at h
      contradiction
    refine ⟨hmem, ?_⟩
    rw [List.idxOf_eq_getD_idxOf?, h, Option.getD_some]
  . rintro ⟨hmem, rfl⟩
    rw [List.idxOf_eq_getD_idxOf?]
    cases h : r.names.idxOf? name with
    | some object => rfl
    | none => exact absurd hmem (List.idxOf?_eq_none_iff.mp h)

theorem exists_find? (h : name ∈ r.names) : ∃ object, r.find? name = some object :=
  ⟨_, find?_eq_some.mpr ⟨h, rfl⟩⟩

theorem lt_of_find? (h : r.find? name = some object) : object < r.names.length := by
  rcases find?_eq_some.mp h with ⟨hmem, rfl⟩
  exact List.idxOf_lt_length_of_mem hmem

theorem find?_inj (h : r.find? name = some object) (h' : r.find? name' = some object)
    : name = name' := by
  rcases find?_eq_some.mp h with ⟨hmem, hidx⟩
  rcases find?_eq_some.mp h' with ⟨_, hidx'⟩
  rw [← List.idxOf_inj hmem, hidx, hidx']

theorem find?_mono (hle : r ≤ r') (h : r.find? name = some object)
    : r'.find? name = some object := by
  rcases find?_eq_some.mp h with ⟨hmem, hidx⟩
  rcases hle with ⟨later, heq⟩
  rw [find?_eq_some, ← heq]
  exact ⟨List.mem_append_left later hmem, by rw [List.idxOf_append_of_mem hmem, hidx]⟩

theorem names_insert (h : name ∉ r.names) : (r.insert name).names = r.names ++ [name] := by
  simp [insert, h]

theorem le_insert (r : Registry κ) (name : κ) : r ≤ r.insert name := by
  unfold insert
  split
  . exact r.le_refl
  . exact List.prefix_append r.names [name]

theorem find?_insert (h : name ∉ r.names)
    : (r.insert name).find? name = some r.names.length := by
  rw [find?_eq_some, names_insert h, List.idxOf_append_of_notMem h]
  simp

end Registry

/-! ## Sessions -/

namespace Session

variable {σ α β : Type} (call : σ → α → β × σ)

def answers : σ → List α → List (α × β)
  | _, [] => []
  | s, a :: as => (a, (call s a).1) :: answers (call s a).2 as

def after : σ → List α → σ
  | s, [] => s
  | s, a :: as => after (call s a).2 as

variable {call} {s : σ} {a : α} {b : β} {as : List α}

theorem answers_append (s : σ) (as bs : List α)
    : answers call s (as ++ bs) = answers call s as ++ answers call (after call s as) bs := by
  induction as generalizing s with
  | nil => rfl
  | cons a as ih => simp [answers, after, ih]

theorem after_append (s : σ) (as bs : List α)
    : after call s (as ++ bs) = after call (after call s as) bs := by
  induction as generalizing s with
  | nil => rfl
  | cons a as ih => simp [after, ih]

theorem map_answers (call : σ → α → β × σ) (s : σ) (as : List α)
    : (answers call s as).map (·.1) = as := by
  induction as generalizing s with
  | nil => rfl
  | cons a as ih => simp [answers, ih]

theorem answers_eq_append {xs ys : List (α × β)} (h : answers call s as = xs ++ (a, b) :: ys)
    : ∃ earlier later, as = earlier ++ a :: later ∧ xs = answers call s earlier
        ∧ (call (after call s earlier) a).1 = b := by
  induction as generalizing s xs with
  | nil => simp [answers] at h
  | cons c as ih =>
    rw [answers] at h
    cases xs with
    | nil =>
      rw [List.nil_append, List.cons.injEq, Prod.mk.injEq] at h
      rcases h with ⟨⟨rfl, hb⟩, _⟩
      exact ⟨[], as, rfl, rfl, hb⟩
    | cons x xs =>
      rw [List.cons_append, List.cons.injEq] at h
      rcases h with ⟨rfl, h⟩
      rcases ih h with ⟨earlier, later, rfl, rfl, hb⟩
      exact ⟨c :: earlier, later, rfl, rfl, hb⟩

theorem mem_answers (h : (a, b) ∈ answers call s as)
    : ∃ earlier later, as = earlier ++ a :: later ∧ (call (after call s earlier) a).1 = b := by
  rcases List.append_of_mem h with ⟨xs, ys, heq⟩
  rcases answers_eq_append heq with ⟨earlier, later, has, _, hb⟩
  exact ⟨earlier, later, has, hb⟩

theorem after_le {le : σ → σ → Prop} (hrefl : ∀ s, le s s)
    (htrans : ∀ s t u, le s t → le t u → le s u) (hcall : ∀ s a, le s (call s a).2) (s : σ)
    (as : List α) : le s (after call s as) := by
  induction as generalizing s with
  | nil => exact hrefl s
  | cons a as ih => exact htrans _ _ _ (hcall s a) (ih _)

end Session
