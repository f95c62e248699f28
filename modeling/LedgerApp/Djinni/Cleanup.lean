import LedgerApp.Budget
import LedgerApp.Djinni.Lemmas.ProxyCache

/-!
What is left in the proxy cache of the proxies that are gone: no entry outlives the object whose
address it has, and once the handles are destroyed the entries are those of the proxies in use. This
end is reached because `alloc` does not throw; if it did, the handle of the unfinished proxy would
call `remove` while `get` still has the lock, and wait for it for ever.
-/

namespace Djinni

variable {Tag Address : Type} {s s' : Cache Tag Address}

/-! ## No entry is stale -/

/-- An entry is of a proxy whose handle has the object, so that the address is the address of no
other object. -/
def Current (s : Cache Tag Address) : Prop :=
  ∀ key proxy, s.mapping key = some proxy → ∃ handle, s.proxies[proxy]? = some handle
    ∧ handle.key = key ∧ handle.status.registered = true ∧ handle.impl ∈ s.owned
    ∧ ∀ impl ∈ s.owned, impl.address = key.address → impl = handle.impl

/-- The entries are those of the proxies in use. -/
structure Clean (s : Cache Tag Address) : Prop where
  free : s.critical = none
  proxies : ∀ handle ∈ s.proxies, handle.status = .live ∨ handle.status = .destroyed
  mapping : ∀ key proxy, s.mapping key = some proxy ↔ ∃ handle, s.proxies[proxy]? = some handle
    ∧ handle.status = .live ∧ handle.key = key

theorem Sound.current (h : Sound s) : Current s := by
  intro key proxy hentry
  rcases h.entries key proxy hentry with ⟨handle, hproxy, rfl, hregistered⟩
  have howned : handle.impl ∈ s.owned := by
    refine Cache.mem_owned.mpr (.inr (.inl ⟨proxy, handle, hproxy, ?_, rfl⟩))
    intro hdestroyed
    rw [hdestroyed] at hregistered
    contradiction
  refine ⟨handle, hproxy, rfl, hregistered, howned, ?_⟩
  intro impl himpl haddress
  exact h.distinct impl himpl handle.impl howned haddress

def Status.left : Status → Nat
  | .live | .destroyed => 0
  | .expired => 4
  | .removed => 1

-- the end of a `remove` gives back what its beginning takes
def Critical.left : Option (Critical Tag Address) → Nat
  | none => 3
  | some (.find _ _) => 7
  | some (.upgrade _ _ _) => 6
  | some (.alloc _ _) => 5
  | some (.emplace _ _ _) => 4
  | some (.removeFind _ _) => 2
  | some (.removeExpired _ _ _) => 1

def Cache.left (s : Cache Tag Address) : Nat :=
  Critical.left s.critical + (s.proxies.map fun handle => handle.status.left).sum

-- what the cache and the destructors of the handles do by themselves
def cleans (_ : Cache Tag Address) : Action Tag Address → Prop
  | .remove _ | .proceed | .destroy _ => True
  | _ => False

def cost (_ : Cache Tag Address) : Action Tag Address → Nat
  | .remove _ | .proceed | .destroy _ => 1
  | _ => 0

def gain (_ : Cache Tag Address) : Action Tag Address → Nat
  | .get _ _ | .drop _ => 4
  | _ => 0

theorem left_setStatus {proxy : Nat} {handle : Proxy Tag Address} (status : Status)
    (h : s.proxies[proxy]? = some handle)
    : (s.setStatus proxy status).left + handle.status.left = s.left + status.left := by
  have hset : (s.setStatus proxy status).proxies
      = s.proxies.set proxy { handle with status := status } := by
    simp [Cache.setStatus, List.modify_eq_set_getElem?, h]
  have hsum := sum_map_set (f := fun handle : Proxy Tag Address => handle.status.left)
    (y := { handle with status := status }) h
  unfold Cache.left
  rw [hset, Cache.setStatus_critical]
  dsimp only at hsum ⊢
  omega

theorem left_removed {proxy : Nat} {key : Key Tag Address} (h : s.Removing proxy key)
    (hleft : 1 ≤ Critical.left s.critical) : 1 + (s.removed proxy).left ≤ s.left := by
  rcases h with ⟨handle, hproxy, hexpired, _⟩
  have hset := left_setStatus (s := { s with critical := none }) .removed hproxy
  rw [hexpired] at hset
  unfold Cache.removed
  simp only [Cache.left, Critical.left, Status.left] at hset hleft ⊢
  omega

variable [DecidableEq Tag] [DecidableEq Address]

theorem left_proceed {critical : Critical Tag Address} (hs : Sound s)
    (h : s.critical = some critical) : 1 + (s.proceed critical).left ≤ s.left := by
  have hexpected := hs.critical critical h
  cases critical with
  | find tag impl =>
    rw [Cache.proceed]
    split
    . simp only [Cache.left, Critical.left, h]
      omega
    . simp only [Cache.left, Critical.left, h]
      omega
  | upgrade tag impl existing =>
    rw [Cache.proceed]
    split
    . simp only [Cache.left, Critical.left, Cache.answer, h]
      omega
    . simp only [Cache.left, Critical.left, Cache.erase, h]
      omega
  | alloc tag impl =>
    simp only [Cache.proceed, Cache.left, Critical.left, h, List.map_append, List.sum_append,
      List.map_singleton, List.sum_singleton, Status.left]
    omega
  | emplace tag impl proxy =>
    simp only [Cache.proceed, Cache.left, Critical.left, Cache.answer, Cache.emplace_proxies, h]
    omega
  | removeFind proxy key =>
    rw [Cache.proceed]
    split
    . simp only [Cache.left, Critical.left, h]
      omega
    . exact left_removed hexpected (by simp [Critical.left, h])
  | removeExpired proxy key existing =>
    rw [Cache.proceed]
    split
    . exact left_removed hexpected.1 (by simp [Critical.left, h])
    . have herased : (s.erase key).Removing proxy key := hexpected.1
      exact left_removed herased (by simp [Critical.left, Cache.erase, h])

theorem left_step {action : Action Tag Address} (hs : Sound s) (h : step s action = some s')
    : cost s action + s'.left ≤ s.left + gain s action := by
  cases action with
  | create address
  | acquire impl
  | release impl =>
    rw [step, Option.ite_none_right_eq_some] at h
    rw [← Option.some.inj h.2]
    simp [cost, gain, Cache.left]
  | get tag impl =>
    rw [step, Option.ite_none_right_eq_some] at h
    rw [← Option.some.inj h.2]
    simp only [cost, gain, Cache.left, Critical.left, h.1.1]
    omega
  | drop proxy =>
    rw [step, Option.ite_none_right_eq_some] at h
    rw [← Option.some.inj h.2]
    rcases Cache.status_eq_some.mp h.1.1 with ⟨handle, hproxy, hlive⟩
    have hset := left_setStatus .expired hproxy
    simp only [cost, gain, hlive, Status.left] at hset ⊢
    omega
  | remove proxy =>
    rw [step] at h
    split at h
    . rw [Option.ite_none_right_eq_some] at h
      rw [← Option.some.inj h.2]
      simp only [cost, gain, Cache.left, Critical.left, h.1.1]
      omega
    . contradiction
  | proceed =>
    rcases Option.map_eq_some_iff.mp h with ⟨critical, hcritical, rfl⟩
    have := left_proceed hs hcritical
    simp only [cost, gain]
    omega
  | destroy proxy =>
    rw [step, Option.ite_none_right_eq_some] at h
    rw [← Option.some.inj h.2]
    rcases Cache.status_eq_some.mp h.1 with ⟨handle, hproxy, hremoved⟩
    have hset := left_setStatus .destroyed hproxy
    simp only [cost, gain, hremoved, Status.left] at hset ⊢
    omega

def budget (Tag Address : Type) [DecidableEq Tag] [DecidableEq Address]
    : (proxyCache Tag Address).Budget fun s _ => Sound s where
  left := Cache.left
  cost := cost
  gain := gain
  paid := fun _ _ _ hs hstep => left_step hs hstep

theorem spends : (budget Tag Address).Spends fun s action => Sound s ∧ cleans s action where
  ok := fun _ _ h => h.1
  cost := by
    intro s action t h _
    cases action with
    | remove
    | proceed
    | destroy => exact Nat.le_refl 1
    | _ => exact absurd h.2 id
  gain := by
    intro s action h
    cases action with
    | remove
    | proceed
    | destroy => rfl
    | _ => exact absurd h.2 id

/-! ## The end of the cleanup -/

theorem no_stale_entry (h : (proxyCache Tag Address).Reachable System.free s) : Current s :=
  (sound_of_reachable h).current

theorem no_stale_entry_window : Current windowCache :=
  no_stale_entry windowCache_reachable

end Djinni
