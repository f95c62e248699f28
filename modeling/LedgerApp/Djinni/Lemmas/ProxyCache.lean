import Mathlib.Data.List.Basic
import LedgerApp.Djinni.ProxyCache

/-!
What a step of the proxy cache does, and the invariant of its runs.
-/

namespace Djinni

variable {Tag Address : Type} {s s' : Cache Tag Address}

namespace Cache

theorem setStatus_critical (proxy : Nat) (status : Status)
    : (s.setStatus proxy status).critical = s.critical :=
  rfl

theorem setStatus_other {proxy other : Nat} (status : Status) (h : proxy ≠ other)
    : (s.setStatus proxy status).proxies[other]? = s.proxies[other]? := by
  simp [setStatus, h]

theorem setStatus_self {proxy : Nat} {handle : Proxy Tag Address} (status : Status)
    (h : s.proxies[proxy]? = some handle)
    : (s.setStatus proxy status).proxies[proxy]? = some { handle with status := status } := by
  simp [setStatus, h]

theorem proxies_setStatus {proxy other : Nat} {status : Status} {handle : Proxy Tag Address}
    (h : (s.setStatus proxy status).proxies[other]? = some handle)
    : ∃ before, s.proxies[other]? = some before ∧ before.tag = handle.tag
        ∧ before.impl = handle.impl
        ∧ ((other = proxy ∧ handle.status = status) ∨ (other ≠ proxy ∧ handle = before)) := by
  by_cases hother : proxy = other
  . simp only [setStatus, List.getElem?_modify, hother, if_true] at h
    rcases Option.map_eq_some_iff.mp h with ⟨before, hbefore, rfl⟩
    exact ⟨before, hbefore, rfl, rfl, .inl ⟨hother.symm, rfl⟩⟩
  . rw [setStatus_other status hother] at h
    exact ⟨handle, h, rfl, rfl, .inr ⟨Ne.symm hother, rfl⟩⟩

theorem status_eq_some {proxy : Nat} {status : Status}
    : s.status proxy = some status ↔
        ∃ handle, s.proxies[proxy]? = some handle ∧ handle.status = status :=
  Option.map_eq_some_iff

theorem mem_owned {impl : Impl Address}
    : impl ∈ s.owned ↔ impl ∈ s.held
        ∨ (∃ (proxy : Nat) (handle : Proxy Tag Address), s.proxies[proxy]? = some handle
            ∧ handle.status ≠ .destroyed ∧ handle.impl = impl)
        ∨ impl ∈ s.argument := by
  simp only [owned, List.mem_append, List.mem_map, List.mem_filter, or_assoc]
  constructor
  . rintro (h | ⟨handle, ⟨hmem, hstatus⟩, rfl⟩ | h)
    . exact .inl h
    . rcases List.mem_iff_getElem?.mp hmem with ⟨proxy, hproxy⟩
      exact .inr (.inl ⟨proxy, handle, hproxy, of_decide_eq_true hstatus, rfl⟩)
    . exact .inr (.inr h)
  . rintro (h | ⟨proxy, handle, hproxy, hstatus, rfl⟩ | h)
    . exact .inl h
    . exact .inr (.inl ⟨handle, ⟨List.mem_of_getElem? hproxy, decide_eq_true hstatus⟩, rfl⟩)
    . exact .inr (.inr h)

end Cache

theorem Cache.getElem?_alloc {proxy : Nat} {handle new : Proxy Tag Address}
    (h : s.proxies[proxy]? = some handle) : (s.proxies ++ [new])[proxy]? = some handle := by
  rw [List.getElem?_append_left (List.getElem?_eq_some_iff.mp h).1, h]

/-! ## The invariant -/

def Status.registered : Status → Bool
  | .live | .expired => true
  | .removed | .destroyed => false

def Cache.Entries (s : Cache Tag Address) : Prop :=
  ∀ key proxy, s.mapping key = some proxy → ∃ handle, s.proxies[proxy]? = some handle
    ∧ handle.key = key ∧ handle.status.registered = true

def Cache.Registered (s : Cache Tag Address) : Prop :=
  ∀ proxy handle, s.proxies[proxy]? = some handle → handle.status = .live →
    s.isLocal proxy = false → s.mapping handle.key = some proxy

def Cache.Answered (s : Cache Tag Address) : Prop :=
  ∀ answer ∈ s.answers, ∃ handle, s.proxies[answer.proxy]? = some handle
    ∧ handle.tag = answer.tag ∧ handle.impl = answer.impl

-- the handle is in its destructor
def Cache.Removing (s : Cache Tag Address) (proxy : Nat) (key : Key Tag Address) : Prop :=
  ∃ handle, s.proxies[proxy]? = some handle ∧ handle.status = .expired ∧ handle.key = key

/-- What the holder of the lock knows. -/
def Critical.Expected (s : Cache Tag Address) : Critical Tag Address → Prop
  | .find _ _ => True
  | .upgrade tag impl existing => s.mapping ⟨tag, impl.address⟩ = some existing
  | .alloc tag impl => s.mapping ⟨tag, impl.address⟩ = none
  | .emplace tag impl proxy =>
    s.mapping ⟨tag, impl.address⟩ = none ∧ s.proxies[proxy]? = some ⟨tag, impl, .live⟩
      ∧ s.proxies.length = proxy + 1
  | .removeFind proxy key => s.Removing proxy key
  | .removeExpired proxy key existing => s.Removing proxy key ∧ s.mapping key = some existing

-- the proxy whose status it relies on
def Critical.subject : Critical Tag Address → Option Nat
  | .emplace _ _ proxy | .removeFind proxy _ | .removeExpired proxy _ _ => some proxy
  | .find _ _ | .upgrade _ _ _ | .alloc _ _ => none

structure Sound (s : Cache Tag Address) : Prop where
  distinct : ∀ a ∈ s.owned, ∀ b ∈ s.owned, a.address = b.address → a = b
  entries : s.Entries
  registered : s.Registered
  critical : ∀ critical, s.critical = some critical → critical.Expected s
  answered : s.Answered

theorem sound_init : Sound (Cache.init : Cache Tag Address) where
  distinct := by simp [Cache.init, Cache.owned, Cache.argument]
  entries := by simp [Cache.init, Cache.Entries]
  registered := by simp [Cache.init, Cache.Registered]
  critical := by simp [Cache.init]
  answered := by simp [Cache.init, Cache.Answered]

theorem Cache.Removing.status {proxy : Nat} {key : Key Tag Address} (h : s.Removing proxy key)
    : s.status proxy = some .expired := by
  rcases h with ⟨handle, hproxy, hexpired, _⟩
  exact Cache.status_eq_some.mpr ⟨handle, hproxy, hexpired⟩

theorem Cache.Entries.setStatus {status : Status} (h : s.Entries) (proxy : Nat)
    (hstatus : status.registered = true ∨ ∀ key, s.mapping key ≠ some proxy)
    : (s.setStatus proxy status).Entries := by
  intro key other hentry
  rcases h key other hentry with ⟨handle, hproxy, hkey, hregistered⟩
  by_cases hother : proxy = other
  . rw [hother] at hstatus ⊢
    refine ⟨_, setStatus_self status hproxy, hkey, ?_⟩
    exact hstatus.resolve_right fun hnone => hnone key hentry
  . exact ⟨handle, by rw [setStatus_other status hother, hproxy], hkey, hregistered⟩

theorem Cache.Registered.setStatus {status : Status} (h : s.Registered) (proxy : Nat)
    (hstatus : status ≠ .live) : (s.setStatus proxy status).Registered := by
  intro other handle hproxy hlive hlocal
  rcases proxies_setStatus hproxy with ⟨before, hbefore, _, _, ⟨_, hnew⟩ | ⟨_, rfl⟩⟩
  . exact absurd (hnew.symm.trans hlive) hstatus
  . exact h other handle hbefore hlive hlocal

theorem Cache.Registered.critical (h : s.Registered) (hlocal : ∀ proxy, s.isLocal proxy = false)
    (critical : Option (Critical Tag Address)) : { s with critical := critical }.Registered := by
  intro proxy handle hproxy hlive _
  exact h proxy handle hproxy hlive (hlocal proxy)

theorem Cache.Removing.setStatus {proxy other : Nat} {key : Key Tag Address} (status : Status)
    (h : s.Removing other key) (hother : proxy ≠ other)
    : (s.setStatus proxy status).Removing other key := by
  rcases h with ⟨handle, hproxy, hrest⟩
  exact ⟨handle, by rw [setStatus_other status hother, hproxy], hrest⟩

theorem Critical.Expected.setStatus {critical : Critical Tag Address} {proxy : Nat}
    (status : Status) (h : critical.Expected s) (hproxy : critical.subject ≠ some proxy)
    : critical.Expected (s.setStatus proxy status) := by
  have hother : ∀ other, critical.subject = some other → proxy ≠ other := by
    rintro other hother rfl
    exact hproxy hother
  cases critical with
  | find tag impl
  | upgrade tag impl existing
  | alloc tag impl => exact h
  | emplace tag impl made =>
    refine ⟨h.1, ?_, ?_⟩
    . rw [Cache.setStatus_other status (hother made rfl), h.2.1]
    . rw [Cache.setStatus, List.length_modify, h.2.2]
  | removeFind removing key => exact Cache.Removing.setStatus status h (hother removing rfl)
  | removeExpired removing key existing => exact ⟨h.1.setStatus status (hother removing rfl), h.2⟩

theorem Cache.not_entry_of_removing {proxy : Nat} {key : Key Tag Address} (h : s.Entries)
    (hremoving : s.Removing proxy key) (hkey : s.mapping key ≠ some proxy)
    (key' : Key Tag Address) : s.mapping key' ≠ some proxy := by
  intro hentry
  rcases hremoving with ⟨handle, hproxy, _, rfl⟩
  rcases h key' proxy hentry with ⟨handle', hproxy', rfl, _⟩
  rw [hproxy, Option.some.injEq] at hproxy'
  rw [hproxy'] at hkey
  exact hkey hentry

theorem owned_setStatus {proxy : Nat} {status : Status} {impl : Impl Address}
    (h : impl ∈ (s.setStatus proxy status).owned)
    (hstatus : status = .destroyed ∨ s.status proxy ≠ some .destroyed) : impl ∈ s.owned := by
  rcases Cache.mem_owned.mp h with hheld | ⟨other, handle, hproxy, hdestroyed, rfl⟩ | hargument
  . exact Cache.mem_owned.mpr (.inl hheld)
  . rcases Cache.proxies_setStatus hproxy with ⟨before, hbefore, _, himpl, hcases⟩
    refine Cache.mem_owned.mpr (.inr (.inl ⟨other, before, hbefore, ?_, himpl⟩))
    intro hgone
    rcases hcases with ⟨rfl, hnew⟩ | ⟨_, rfl⟩
    . rcases hstatus with rfl | hstatus
      . exact hdestroyed hnew
      . exact hstatus (Cache.status_eq_some.mpr ⟨before, hbefore, hgone⟩)
    . exact hdestroyed hgone
  . exact Cache.mem_owned.mpr (.inr (.inr hargument))

theorem argument_owned {critical : Critical Tag Address} {impl : Impl Address}
    (h : s.critical = some critical) (himpl : impl ∈ critical.argument) : impl ∈ s.owned := by
  apply Cache.mem_owned.mpr (.inr (.inr _))
  simp only [Cache.argument, h]
  exact himpl

theorem owned_congr {impl : Impl Address} (h : impl ∈ s'.owned) (hheld : s'.held = s.held)
    (hproxies : s'.proxies = s.proxies) (hargument : ∀ a ∈ s'.argument, a ∈ s.owned)
    : impl ∈ s.owned := by
  rcases Cache.mem_owned.mp h with himpl | himpl | himpl
  . rw [hheld] at himpl
    exact Cache.mem_owned.mpr (.inl himpl)
  . rw [hproxies] at himpl
    exact Cache.mem_owned.mpr (.inr (.inl himpl))
  . exact hargument impl himpl

theorem owned_removed {proxy : Nat} {key : Key Tag Address} {impl : Impl Address}
    (h : impl ∈ (s.removed proxy).owned) (hremoving : s.Removing proxy key) : impl ∈ s.owned := by
  have hkept : impl ∈ ({ s with critical := none } : Cache Tag Address).owned := by
    apply owned_setStatus h
    right
    rw [show Cache.status { s with critical := none } proxy = s.status proxy from rfl,
      hremoving.status]
    simp
  refine owned_congr hkept rfl rfl ?_
  intro a ha
  contradiction

theorem not_subject {critical : Critical Tag Address} {proxy : Nat} {status : Status} (hs : Sound s)
    (hcritical : s.critical = some critical) (hstatus : s.status proxy = some status)
    (hlive : status = .live → s.isLocal proxy = false) (hexpired : status ≠ .expired)
    : critical.subject ≠ some proxy := by
  intro hsubject
  have hexpected := hs.critical critical hcritical
  cases critical with
  | find tag impl
  | upgrade tag impl existing
  | alloc tag impl => contradiction
  | emplace tag impl made =>
    rw [Critical.subject, Option.some.injEq] at hsubject
    rw [hsubject] at hcritical hexpected
    rw [Cache.status, hexpected.2.1, Option.map_some, Option.some.injEq] at hstatus
    have hlocal := hlive hstatus.symm
    simp [Cache.isLocal, hcritical] at hlocal
  | removeFind removing key =>
    rw [Critical.subject, Option.some.injEq] at hsubject
    have hremoving : s.Removing removing key := hexpected
    rw [hsubject] at hremoving
    rw [hremoving.status, Option.some.injEq] at hstatus
    exact hexpired hstatus.symm
  | removeExpired removing key existing =>
    rw [Critical.subject, Option.some.injEq] at hsubject
    have hremoving : s.Removing removing key := hexpected.1
    rw [hsubject] at hremoving
    rw [hremoving.status, Option.some.injEq] at hstatus
    exact hexpired hstatus.symm

-- a proxy keeps its tag and its object
def Cache.Keeps (s s' : Cache Tag Address) : Prop :=
  ∀ (proxy : Nat) (handle : Proxy Tag Address), s.proxies[proxy]? = some handle →
    ∃ handle' : Proxy Tag Address, s'.proxies[proxy]? = some handle' ∧ handle'.tag = handle.tag
      ∧ handle'.impl = handle.impl

theorem Cache.keeps_of_eq (h : s'.proxies = s.proxies) : s.Keeps s' := by
  intro proxy handle hproxy
  exact ⟨handle, by rw [h, hproxy], rfl, rfl⟩

theorem Cache.keeps_setStatus (s : Cache Tag Address) (proxy : Nat) (status : Status)
    : s.Keeps (s.setStatus proxy status) := by
  intro other handle hproxy
  by_cases hother : proxy = other
  . rw [hother]
    exact ⟨_, setStatus_self status hproxy, rfl, rfl⟩
  . exact ⟨handle, by rw [setStatus_other status hother, hproxy], rfl, rfl⟩

/-- A live entry for the address of an object that exists is a proxy of this object. -/
theorem wraps_of_entry {tag : Tag} {impl : Impl Address} {existing : Nat} (hs : Sound s)
    (himpl : impl ∈ s.owned) (hentry : s.mapping ⟨tag, impl.address⟩ = some existing)
    : ∃ handle, s.proxies[existing]? = some handle ∧ handle.tag = tag ∧ handle.impl = impl := by
  rcases hs.entries _ existing hentry with ⟨handle, hproxy, hkey, hregistered⟩
  rw [Proxy.key, Key.mk.injEq] at hkey
  have howned : handle.impl ∈ s.owned := by
    refine Cache.mem_owned.mpr (.inr (.inl ⟨existing, handle, hproxy, ?_, rfl⟩))
    intro hdestroyed
    rw [hdestroyed] at hregistered
    contradiction
  exact ⟨handle, hproxy, hkey.1, hs.distinct _ howned _ himpl hkey.2⟩

/-! ## The steps -/

variable [DecidableEq Tag] [DecidableEq Address]

/-- What one step does. -/
inductive Effect (s : Cache Tag Address) : Cache Tag Address → Prop
  | create (address : Address) (hfresh : ∀ impl ∈ s.owned, impl.address ≠ address)
    : Effect s { s with held := ⟨s.created, address⟩ :: s.held, created := s.created + 1 }
  | acquire (impl : Impl Address) (h : impl ∈ s.owned)
    : Effect s { s with held := impl :: s.held }
  | release (impl : Impl Address) : Effect s { s with held := s.held.erase impl }
  | get (tag : Tag) (impl : Impl Address) (hfree : s.critical = none) (h : impl ∈ s.held)
    : Effect s { s with critical := some (.find tag impl) }
  | drop (proxy : Nat) (hlive : s.status proxy = some .live) (hlocal : s.isLocal proxy = false)
    : Effect s (s.setStatus proxy .expired)
  | remove (proxy : Nat) (handle : Proxy Tag Address) (hproxy : s.proxies[proxy]? = some handle)
    (hfree : s.critical = none) (hexpired : handle.status = .expired)
    : Effect s { s with critical := some (.removeFind proxy handle.key) }
  | found (tag : Tag) (impl : Impl Address) (existing : Nat)
    (hcritical : s.critical = some (.find tag impl))
    (hentry : s.mapping ⟨tag, impl.address⟩ = some existing)
    : Effect s { s with critical := some (.upgrade tag impl existing) }
  | absent (tag : Tag) (impl : Impl Address) (hcritical : s.critical = some (.find tag impl))
    (hentry : s.mapping ⟨tag, impl.address⟩ = none)
    : Effect s { s with critical := some (.alloc tag impl) }
  | upgraded (tag : Tag) (impl : Impl Address) (existing : Nat)
    (hcritical : s.critical = some (.upgrade tag impl existing))
    (hlive : s.status existing = some .live) : Effect s (s.answer tag impl existing)
  | pruned (tag : Tag) (impl : Impl Address) (existing : Nat)
    (hcritical : s.critical = some (.upgrade tag impl existing))
    (hlive : s.status existing ≠ some .live)
    : Effect s { s.erase ⟨tag, impl.address⟩ with critical := some (.alloc tag impl) }
  | allocated (tag : Tag) (impl : Impl Address) (hcritical : s.critical = some (.alloc tag impl))
    : Effect s { s with
        proxies := s.proxies ++ [⟨tag, impl, .live⟩]
        critical := some (.emplace tag impl s.proxies.length) }
  | emplaced (tag : Tag) (impl : Impl Address) (proxy : Nat)
    (hcritical : s.critical = some (.emplace tag impl proxy))
    : Effect s ((s.emplace ⟨tag, impl.address⟩ proxy).answer tag impl proxy)
  | removeFound (proxy : Nat) (key : Key Tag Address) (existing : Nat)
    (hcritical : s.critical = some (.removeFind proxy key)) (hentry : s.mapping key = some existing)
    : Effect s { s with critical := some (.removeExpired proxy key existing) }
  | removeAbsent (proxy : Nat) (key : Key Tag Address)
    (hcritical : s.critical = some (.removeFind proxy key)) (hentry : s.mapping key = none)
    : Effect s (s.removed proxy)
  | removeLive (proxy : Nat) (key : Key Tag Address) (existing : Nat)
    (hcritical : s.critical = some (.removeExpired proxy key existing))
    (hlive : s.status existing = some .live) : Effect s (s.removed proxy)
  | removeErased (proxy : Nat) (key : Key Tag Address) (existing : Nat)
    (hcritical : s.critical = some (.removeExpired proxy key existing))
    (hlive : s.status existing ≠ some .live) : Effect s ((s.erase key).removed proxy)
  | destroy (proxy : Nat) (hremoved : s.status proxy = some .removed)
    : Effect s (s.setStatus proxy .destroyed)

theorem effect_proceed {critical : Critical Tag Address} (h : s.critical = some critical)
    : Effect s (s.proceed critical) := by
  cases critical with
  | find tag impl =>
    rw [Cache.proceed]
    split
    . next existing hentry => exact .found tag impl existing h hentry
    . next hentry => exact .absent tag impl h hentry
  | upgrade tag impl existing =>
    rw [Cache.proceed]
    split
    . next hlive => exact .upgraded tag impl existing h hlive
    . next hlive => exact .pruned tag impl existing h hlive
  | alloc tag impl => exact .allocated tag impl h
  | emplace tag impl proxy => exact .emplaced tag impl proxy h
  | removeFind proxy key =>
    rw [Cache.proceed]
    split
    . next existing hentry => exact .removeFound proxy key existing h hentry
    . next hentry => exact .removeAbsent proxy key h hentry
  | removeExpired proxy key existing =>
    rw [Cache.proceed]
    split
    . next hlive => exact .removeLive proxy key existing h hlive
    . next hlive => exact .removeErased proxy key existing h hlive

theorem effect_of_step {action : Action Tag Address} (h : step s action = some s')
    : Effect s s' := by
  cases action with
  | create address =>
    rw [step, Option.ite_none_right_eq_some] at h
    rw [← Option.some.inj h.2]
    exact .create address h.1
  | acquire impl =>
    rw [step, Option.ite_none_right_eq_some] at h
    rw [← Option.some.inj h.2]
    exact .acquire impl h.1
  | release impl =>
    rw [step, Option.ite_none_right_eq_some] at h
    rw [← Option.some.inj h.2]
    exact .release impl
  | get tag impl =>
    rw [step, Option.ite_none_right_eq_some] at h
    rw [← Option.some.inj h.2]
    exact .get tag impl h.1.1 h.1.2
  | drop proxy =>
    rw [step, Option.ite_none_right_eq_some] at h
    rw [← Option.some.inj h.2]
    exact .drop proxy h.1.1 h.1.2
  | remove proxy =>
    rw [step] at h
    split at h
    . next handle hproxy =>
      rw [Option.ite_none_right_eq_some] at h
      rw [← Option.some.inj h.2]
      exact .remove proxy handle hproxy h.1.1 h.1.2
    . contradiction
  | proceed =>
    rcases Option.map_eq_some_iff.mp h with ⟨critical, hcritical, rfl⟩
    exact effect_proceed hcritical
  | destroy proxy =>
    rw [step, Option.ite_none_right_eq_some] at h
    rw [← Option.some.inj h.2]
    exact .destroy proxy h.1

@[simp]
theorem Cache.emplace_held (key : Key Tag Address) (proxy : Nat)
    : (s.emplace key proxy).held = s.held := by
  unfold Cache.emplace
  split
  . rfl
  . rfl

@[simp]
theorem Cache.emplace_proxies (key : Key Tag Address) (proxy : Nat)
    : (s.emplace key proxy).proxies = s.proxies := by
  unfold Cache.emplace
  split
  . rfl
  . rfl

@[simp]
theorem Cache.emplace_answers (key : Key Tag Address) (proxy : Nat)
    : (s.emplace key proxy).answers = s.answers := by
  unfold Cache.emplace
  split
  . rfl
  . rfl

theorem Cache.emplace_mapping {key : Key Tag Address} (proxy : Nat) (h : s.mapping key = none)
    : (s.emplace key proxy).mapping = Function.update s.mapping key (some proxy) := by
  simp [Cache.emplace, h]

/-! ### The objects that exist -/

theorem owned_of_effect {impl : Impl Address} (hs : Sound s) (h : Effect s s')
    (himpl : impl ∈ s'.owned)
    : impl ∈ s.owned
        ∨ (impl.id = s.created ∧ ∀ other ∈ s.owned, other.address ≠ impl.address) := by
  cases h with
  | create address hfresh =>
    rcases Cache.mem_owned.mp himpl with hheld | hlater
    . rcases List.mem_cons.mp hheld with rfl | hheld
      . exact .inr ⟨rfl, hfresh⟩
      . exact .inl (Cache.mem_owned.mpr (.inl hheld))
    . exact .inl (Cache.mem_owned.mpr (.inr hlater))
  | acquire other hother =>
    rcases Cache.mem_owned.mp himpl with hheld | hlater
    . rcases List.mem_cons.mp hheld with rfl | hheld
      . exact .inl hother
      . exact .inl (Cache.mem_owned.mpr (.inl hheld))
    . exact .inl (Cache.mem_owned.mpr (.inr hlater))
  | release other =>
    rcases Cache.mem_owned.mp himpl with hheld | hlater
    . exact .inl (Cache.mem_owned.mpr (.inl (List.mem_of_mem_erase hheld)))
    . exact .inl (Cache.mem_owned.mpr (.inr hlater))
  | get tag other hfree hother =>
    refine .inl (owned_congr himpl rfl rfl ?_)
    intro a ha
    rw [List.mem_singleton.mp ha]
    exact Cache.mem_owned.mpr (.inl hother)
  | drop proxy hlive hlocal => exact .inl (owned_setStatus himpl (.inr (by simp [hlive])))
  | remove proxy handle hproxy hfree hexpired
  | removeFound proxy key existing hcritical hentry =>
    refine .inl (owned_congr himpl rfl rfl ?_)
    intro a ha
    contradiction
  | found tag other existing hcritical
  | absent tag other hcritical
  | pruned tag other existing hcritical =>
    refine .inl (owned_congr himpl rfl rfl ?_)
    intro a ha
    exact argument_owned hcritical ha
  | upgraded tag other existing hcritical
  | emplaced tag other proxy hcritical =>
    refine .inl (owned_congr himpl (by simp [Cache.answer]) (by simp [Cache.answer]) ?_)
    intro a ha
    contradiction
  | allocated tag other hcritical =>
    have hother : other ∈ s.owned := argument_owned hcritical (List.mem_singleton.mpr rfl)
    rcases Cache.mem_owned.mp himpl with hheld | ⟨proxy, handle, hproxy, hstatus, rfl⟩ | hargument
    . exact .inl (Cache.mem_owned.mpr (.inl hheld))
    . rcases List.mem_append.mp (List.mem_of_getElem? hproxy) with hmem | hmem
      . rcases List.mem_iff_getElem?.mp hmem with ⟨proxy, hproxy⟩
        exact .inl (Cache.mem_owned.mpr (.inr (.inl ⟨proxy, handle, hproxy, hstatus, rfl⟩)))
      . rw [List.mem_singleton.mp hmem]
        exact .inl hother
    . rw [List.mem_singleton.mp hargument]
      exact .inl hother
  | removeAbsent proxy key hcritical hentry =>
    exact .inl (owned_removed himpl (hs.critical _ hcritical))
  | removeLive proxy key existing hcritical hlive =>
    exact .inl (owned_removed himpl (hs.critical _ hcritical).1)
  | removeErased proxy key existing hcritical hlive =>
    have herased : (s.erase key).Removing proxy key := (hs.critical _ hcritical).1
    exact .inl (owned_congr (owned_removed himpl herased) rfl rfl
      fun a ha => Cache.mem_owned.mpr (.inr (.inr ha)))
  | destroy proxy hremoved => exact .inl (owned_setStatus himpl (.inl rfl))

theorem distinct_of_effect (hs : Sound s) (h : Effect s s')
    : ∀ a ∈ s'.owned, ∀ b ∈ s'.owned, a.address = b.address → a = b := by
  intro a ha b hb haddress
  rcases owned_of_effect hs h ha with hold | hnew
  . rcases owned_of_effect hs h hb with hold' | hnew'
    . exact hs.distinct a hold b hold' haddress
    . exact absurd haddress (hnew'.2 a hold)
  . rcases owned_of_effect hs h hb with hold' | hnew'
    . exact absurd haddress.symm (hnew.2 b hold')
    . exact Impl.ext (hnew.1.trans hnew'.1.symm) haddress

/-! ### The entries -/

theorem Cache.Entries.emplace {key : Key Tag Address} {proxy : Nat} {handle : Proxy Tag Address}
    (h : s.Entries) (hkey : s.mapping key = none) (hproxy : s.proxies[proxy]? = some handle)
    (hhandle : handle.key = key) (hlive : handle.status = .live)
    : (s.emplace key proxy).Entries := by
  intro key' proxy' hentry
  rw [emplace_mapping proxy hkey] at hentry
  rw [emplace_proxies]
  by_cases hkey' : key' = key
  . rw [hkey', Function.update_self, Option.some.injEq] at hentry
    rw [← hentry, hkey']
    exact ⟨handle, hproxy, hhandle, by rw [hlive]; rfl⟩
  . rw [Function.update_of_ne hkey'] at hentry
    exact h key' proxy' hentry

theorem Cache.Entries.erase (h : s.Entries) (key : Key Tag Address) : (s.erase key).Entries := by
  intro key' proxy hentry
  apply h key' proxy
  by_cases hkey : key' = key
  . rw [Cache.erase, hkey] at hentry
    simp at hentry
  . rw [Cache.erase] at hentry
    simpa [hkey] using hentry

theorem Cache.Registered.erase {key : Key Tag Address} {existing : Nat} (h : s.Registered)
    (hentry : s.mapping key = some existing) (hlive : s.status existing ≠ some .live)
    (hlocal : ∀ proxy, s.isLocal proxy = false) : (s.erase key).Registered := by
  intro proxy handle hproxy hstatus _
  have hkept := h proxy handle hproxy hstatus (hlocal proxy)
  have hkey : handle.key ≠ key := by
    rintro rfl
    rw [hkept, Option.some.injEq] at hentry
    rw [← hentry] at hlive
    exact hlive (status_eq_some.mpr ⟨handle, hproxy, hstatus⟩)
  simp only [Cache.erase, Function.update_of_ne hkey]
  exact hkept

theorem entries_of_effect (hs : Sound s) (h : Effect s s') : s'.Entries := by
  cases h with
  | create
  | acquire
  | release
  | get
  | remove
  | found
  | absent
  | upgraded
  | removeFound => exact hs.entries
  | drop proxy hlive hlocal => exact hs.entries.setStatus proxy (.inl rfl)
  | pruned tag impl existing hcritical hlive => exact hs.entries.erase _
  | allocated tag impl hcritical =>
    intro key proxy hentry
    rcases hs.entries key proxy hentry with ⟨handle, hproxy, hrest⟩
    exact ⟨handle, Cache.getElem?_alloc hproxy, hrest⟩
  | emplaced tag impl proxy hcritical =>
    rcases hs.critical _ hcritical with ⟨hkey, hproxy, _⟩
    exact hs.entries.emplace hkey hproxy rfl rfl
  | removeAbsent proxy key hcritical hentry =>
    have hremoving : s.Removing proxy key := hs.critical _ hcritical
    refine hs.entries.setStatus proxy (.inr (Cache.not_entry_of_removing hs.entries hremoving ?_))
    simp [hentry]
  | removeLive proxy key existing hcritical hlive =>
    rcases hs.critical _ hcritical with ⟨hremoving, hentry⟩
    refine hs.entries.setStatus proxy (.inr (Cache.not_entry_of_removing hs.entries hremoving ?_))
    rw [hentry]
    rintro ⟨rfl⟩
    rw [hremoving.status] at hlive
    contradiction
  | removeErased proxy key existing hcritical hlive =>
    have hremoving : (s.erase key).Removing proxy key := (hs.critical _ hcritical).1
    have hentries := hs.entries.erase key
    refine hentries.setStatus proxy (.inr (Cache.not_entry_of_removing hentries hremoving ?_))
    simp [Cache.erase]
  | destroy proxy hremoved =>
    refine hs.entries.setStatus proxy (.inr ?_)
    intro key hentry
    rcases hs.entries key proxy hentry with ⟨handle, hproxy, _, hregistered⟩
    rw [Cache.status, hproxy, Option.map_some, Option.some.injEq] at hremoved
    rw [hremoved] at hregistered
    contradiction

/-! ### The proxies in use -/

theorem registered_of_effect (hs : Sound s) (h : Effect s s') : s'.Registered := by
  cases h with
  | create
  | acquire
  | release => exact hs.registered
  | get tag impl hfree
  | remove proxy handle hproxy hfree =>
    exact hs.registered.critical (by simp [Cache.isLocal, hfree]) _
  | found tag impl existing hcritical
  | absent tag impl hcritical
  | removeFound proxy key existing hcritical =>
    exact hs.registered.critical (by simp [Cache.isLocal, hcritical]) _
  | upgraded tag impl existing hcritical =>
    exact hs.registered.critical (by simp [Cache.isLocal, hcritical]) none
  | drop proxy hlive hlocal => exact hs.registered.setStatus proxy (by simp)
  | pruned tag impl existing hcritical hlive =>
    have hlocal : ∀ proxy, s.isLocal proxy = false := by simp [Cache.isLocal, hcritical]
    exact (hs.registered.erase (hs.critical _ hcritical) hlive hlocal).critical hlocal _
  | allocated tag impl hcritical =>
    intro proxy handle hproxy hlive hlocal
    have hother : s.proxies.length ≠ proxy := by simpa [Cache.isLocal] using hlocal
    have hold : s.proxies[proxy]? = some handle := by
      rcases List.getElem?_eq_some_iff.mp hproxy with ⟨hlt, _⟩
      rw [List.length_append, List.length_singleton] at hlt
      rwa [List.getElem?_append_left (by omega)] at hproxy
    exact hs.registered proxy handle hold hlive (by simp [Cache.isLocal, hcritical])
  | emplaced tag impl made hcritical =>
    rcases hs.critical _ hcritical with ⟨hkey, hmade, _⟩
    intro proxy handle hproxy hlive _
    rw [Cache.answer, Cache.emplace_mapping made hkey]
    by_cases hother : made = proxy
    . rw [← hother] at hproxy ⊢
      rw [Cache.answer, Cache.emplace_proxies, hmade, Option.some.injEq] at hproxy
      rw [← hproxy]
      exact Function.update_self ..
    . rw [Cache.answer, Cache.emplace_proxies] at hproxy
      have hlocal : s.isLocal proxy = false := by
        simp [Cache.isLocal, hcritical, hother]
      have hentry := hs.registered proxy handle hproxy hlive hlocal
      have hne : handle.key ≠ ⟨tag, impl.address⟩ := by
        intro heq
        rw [heq, hkey] at hentry
        contradiction
      rw [Function.update_of_ne hne, hentry]
  | removeAbsent proxy key hcritical hentry =>
    have hlocal : ∀ proxy, s.isLocal proxy = false := by simp [Cache.isLocal, hcritical]
    exact (hs.registered.critical hlocal none).setStatus proxy (by simp)
  | removeLive proxy key existing hcritical hlive =>
    have hlocal : ∀ proxy, s.isLocal proxy = false := by simp [Cache.isLocal, hcritical]
    exact (hs.registered.critical hlocal none).setStatus proxy (by simp)
  | removeErased proxy key existing hcritical hlive =>
    have hlocal : ∀ proxy, s.isLocal proxy = false := by simp [Cache.isLocal, hcritical]
    have hentry := (hs.critical _ hcritical).2
    have herased := (hs.registered.erase hentry hlive hlocal).critical hlocal none
    exact herased.setStatus proxy (by simp)
  | destroy proxy hremoved => exact hs.registered.setStatus proxy (by simp)

/-! ### The critical sections -/

theorem critical_of_effect (hs : Sound s) (h : Effect s s')
    : ∀ critical, s'.critical = some critical → critical.Expected s' := by
  intro critical hcritical'
  cases h with
  | create
  | acquire
  | release => exact hs.critical critical hcritical'
  | get tag impl hfree =>
    rcases hcritical' with ⟨rfl⟩
    trivial
  | drop proxy hlive hlocal =>
    have hexpected := hs.critical critical hcritical'
    exact hexpected.setStatus _ (not_subject hs hcritical' hlive (fun _ => hlocal) (by simp))
  | remove proxy handle hproxy hfree hexpired =>
    rcases hcritical' with ⟨rfl⟩
    exact ⟨handle, hproxy, hexpired, rfl⟩
  | found tag impl existing hcritical hentry =>
    rcases hcritical' with ⟨rfl⟩
    exact hentry
  | absent tag impl hcritical hentry =>
    rcases hcritical' with ⟨rfl⟩
    exact hentry
  | pruned tag impl existing hcritical hlive =>
    rcases hcritical' with ⟨rfl⟩
    exact Function.update_self ..
  | allocated tag impl hcritical =>
    rcases hcritical' with ⟨rfl⟩
    exact ⟨hs.critical _ hcritical, by simp, by simp⟩
  | removeFound proxy key existing hcritical hentry =>
    rcases hcritical' with ⟨rfl⟩
    exact ⟨hs.critical _ hcritical, hentry⟩
  | upgraded
  | emplaced
  | removeAbsent
  | removeLive
  | removeErased => contradiction
  | destroy proxy hremoved =>
    have hexpected := hs.critical critical hcritical'
    exact hexpected.setStatus _ (not_subject hs hcritical' hremoved (by simp) (by simp))

/-! ### The answers -/

theorem keeps_of_effect (h : Effect s s') : s.Keeps s' := by
  cases h with
  | drop proxy
  | destroy proxy => exact s.keeps_setStatus proxy _
  | removeAbsent proxy
  | removeLive proxy => exact Cache.keeps_setStatus { s with critical := none } proxy .removed
  | removeErased proxy key =>
    exact Cache.keeps_setStatus { s.erase key with critical := none } proxy .removed
  | allocated tag impl hcritical =>
    intro proxy handle hproxy
    exact ⟨handle, Cache.getElem?_alloc hproxy, rfl, rfl⟩
  | emplaced tag impl proxy hcritical => exact Cache.keeps_of_eq (Cache.emplace_proxies _ _)
  | _ => exact Cache.keeps_of_eq rfl

theorem answered_of_effect (hs : Sound s) (h : Effect s s') : s'.Answered := by
  have hkept : ∀ answer ∈ s.answers, ∃ handle, s'.proxies[answer.proxy]? = some handle
      ∧ handle.tag = answer.tag ∧ handle.impl = answer.impl := by
    intro answer hanswer
    rcases hs.answered answer hanswer with ⟨handle, hproxy, htag, himpl⟩
    rcases keeps_of_effect h answer.proxy handle hproxy with ⟨handle', hproxy', htag', himpl'⟩
    exact ⟨handle', hproxy', htag'.trans htag, himpl'.trans himpl⟩
  cases h with
  | upgraded tag impl existing hcritical hlive =>
    intro answer hanswer
    rcases List.mem_append.mp hanswer with hold | hnew
    . exact hkept answer hold
    . rw [List.mem_singleton.mp hnew]
      have howned : impl ∈ s.owned := argument_owned hcritical (List.mem_singleton.mpr rfl)
      have hwraps := wraps_of_entry hs howned (hs.critical _ hcritical)
      exact hwraps
  | emplaced tag impl proxy hcritical =>
    intro answer hanswer
    rw [Cache.answer, Cache.emplace_answers] at hanswer
    rcases List.mem_append.mp hanswer with hold | hnew
    . exact hkept answer hold
    . rw [List.mem_singleton.mp hnew]
      rcases hs.critical _ hcritical with ⟨_, hmade, _⟩
      exact ⟨_, (congrArg (·[proxy]?) (Cache.emplace_proxies _ _)).trans hmade, rfl, rfl⟩
  | _ => exact hkept

theorem sound_of_effect (hs : Sound s) (h : Effect s s') : Sound s' where
  distinct := distinct_of_effect hs h
  entries := entries_of_effect hs h
  registered := registered_of_effect hs h
  critical := critical_of_effect hs h
  answered := answered_of_effect hs h

theorem sound_of_reachable (h : (proxyCache Tag Address).Reachable System.free s) : Sound s := by
  apply h.invariant sound_init
  intro t action u _ ih _ hstep
  exact sound_of_effect ih (effect_of_step hstep)

/-! ## A proxy that is replaced before its handle calls `remove` -/

def windowActions : List (Action Unit Nat) :=
  [.create 7, .get () ⟨0, 7⟩, .proceed, .proceed, .proceed, .drop 0, .get () ⟨0, 7⟩, .proceed,
    .proceed, .proceed, .proceed, .remove 0, .proceed, .proceed]

theorem windowActions_exec
    : ((proxyCache Unit Nat).exec (proxyCache Unit Nat).init windowActions).isSome = true := by
  decide +kernel

def windowCache : Cache Unit Nat :=
  ((proxyCache Unit Nat).exec (proxyCache Unit Nat).init windowActions).get windowActions_exec

theorem windowCache_reachable : (proxyCache Unit Nat).Reachable System.free windowCache :=
  System.reachable_exec windowActions_exec (System.along_free _ _)

end Djinni
