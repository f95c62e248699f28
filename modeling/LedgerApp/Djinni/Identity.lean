import LedgerApp.Identity
import LedgerApp.Djinni.Lemmas.ProxyCache

/-!
What the proxy cache is for: an object that crosses the language boundary twice has the same proxy
both times, for as long as this proxy is in use.
-/

namespace Djinni

open Identity

variable {Tag Address : Type} {s s' : Cache Tag Address}

-- a proxy stands for its object from the time `get` has returned it
def Cache.Stands (s : Cache Tag Address) (object : Tag × Impl Address) (proxy : Nat) : Prop :=
  s.proxies[proxy]? = some ⟨object.1, object.2, .live⟩ ∧ s.isLocal proxy = false

def Cache.made (s : Cache Tag Address) : Nat :=
  match s.critical with
  | some (.emplace _ _ proxy) => proxy
  | _ => s.proxies.length

structure Agrees (s : Cache Tag Address) (t : Identity (Tag × Impl Address)) : Prop where
  sound : Sound s
  current : ∀ object proxy, t.current object = some proxy ↔ s.Stands object proxy
  made : t.made = s.made
  answers : t.answers = s.answers.map fun answer => ((answer.tag, answer.impl), answer.proxy)

-- a step that the users of the proxies do not see
theorem Agrees.congr {t : Identity (Tag × Impl Address)} (h : Agrees s t) (hs : Sound s')
    (hstands : ∀ object proxy, s'.Stands object proxy ↔ s.Stands object proxy)
    (hmade : s'.made = s.made) (hanswers : s'.answers = s.answers) : Agrees s' t where
  sound := hs
  current := fun object proxy => (h.current object proxy).trans (hstands object proxy).symm
  made := h.made.trans hmade.symm
  answers := by rw [hanswers, h.answers]

theorem stands_congr (hproxies : s'.proxies = s.proxies)
    (hlocal : ∀ proxy, s'.isLocal proxy = s.isLocal proxy) (object : Tag × Impl Address)
    (proxy : Nat) : s'.Stands object proxy ↔ s.Stands object proxy := by
  unfold Cache.Stands
  rw [hproxies, hlocal]

theorem stands_setStatus {proxy : Nat} {status : Status} (hstatus : status ≠ .live)
    (object : Tag × Impl Address) (other : Nat)
    : (s.setStatus proxy status).Stands object other ↔ s.Stands object other ∧ other ≠ proxy := by
  have hlocal : (s.setStatus proxy status).isLocal other = s.isLocal other := rfl
  unfold Cache.Stands
  rw [hlocal]
  constructor
  . rintro ⟨hproxy, hother⟩
    rcases Cache.proxies_setStatus hproxy with ⟨before, hbefore, _, _, ⟨_, hnew⟩ | ⟨hne, rfl⟩⟩
    . exact absurd hnew.symm hstatus
    . exact ⟨⟨hbefore, hother⟩, hne⟩
  . rintro ⟨⟨hproxy, hother⟩, hne⟩
    exact ⟨by rw [Cache.setStatus_other status hne.symm, hproxy], hother⟩

theorem stands_dead {proxy : Nat} {status : Status} (hstatus : status ≠ .live)
    (hdead : s.status proxy ≠ some .live) (object : Tag × Impl Address) (other : Nat)
    : (s.setStatus proxy status).Stands object other ↔ s.Stands object other := by
  rw [stands_setStatus hstatus]
  constructor
  . exact And.left
  . intro h
    refine ⟨h, ?_⟩
    rintro rfl
    exact hdead (Cache.status_eq_some.mpr ⟨_, h.1, rfl⟩)

theorem stands_removed {proxy : Nat} {key : Key Tag Address} (h : s.Removing proxy key)
    (hlocal : ∀ other, s.isLocal other = false) (object : Tag × Impl Address) (other : Nat)
    : (s.removed proxy).Stands object other ↔ s.Stands object other := by
  have hdead : Cache.status { s with critical := none } proxy ≠ some .live := by
    rw [show Cache.status { s with critical := none } proxy = s.status proxy from rfl, h.status]
    simp
  have hne : Status.removed ≠ .live := by simp
  have hremoved := stands_dead hne hdead object other
  rw [Cache.removed, hremoved]
  refine stands_congr ?_ ?_ object other
  . rfl
  . exact fun other => (hlocal other).symm

theorem made_setStatus (proxy : Nat) (status : Status)
    : (s.setStatus proxy status).made = s.made := by
  unfold Cache.made
  rw [Cache.setStatus, List.length_modify]

theorem made_eq_length (h : ∀ proxy, s.isLocal proxy = false) : s.made = s.proxies.length := by
  unfold Cache.made
  split
  . next tag impl proxy hcritical =>
    have := h proxy
    simp [Cache.isLocal, hcritical] at this
  . rfl

theorem made_removed {proxy : Nat} (h : ∀ proxy, s.isLocal proxy = false)
    : (s.removed proxy).made = s.made := by
  rw [Cache.removed, made_setStatus, made_eq_length h]
  rfl

theorem stands_alloc {tag : Tag} {impl : Impl Address} (h : s.critical = some (.alloc tag impl))
    (object : Tag × Impl Address) (proxy : Nat)
    : Cache.Stands { s with
          proxies := s.proxies ++ [⟨tag, impl, .live⟩]
          critical := some (.emplace tag impl s.proxies.length) } object proxy
        ↔ s.Stands object proxy := by
  simp only [Cache.Stands, Cache.isLocal, h, decide_eq_false_iff_not]
  constructor
  . rintro ⟨hproxy, hother⟩
    rcases List.getElem?_eq_some_iff.mp hproxy with ⟨hlt, _⟩
    rw [List.length_append, List.length_singleton] at hlt
    rw [List.getElem?_append_left (by omega)] at hproxy
    exact ⟨hproxy, trivial⟩
  . rintro ⟨hproxy, _⟩
    rcases List.getElem?_eq_some_iff.mp hproxy with ⟨hlt, _⟩
    exact ⟨Cache.getElem?_alloc hproxy, by omega⟩

/-- At most one proxy stands for an object. -/
theorem stands_unique {object : Tag × Impl Address} {proxy other : Nat} (hs : Sound s)
    (h : s.Stands object proxy) (h' : s.Stands object other) : proxy = other := by
  have hentry := hs.registered proxy _ h.1 rfl h.2
  have hentry' := hs.registered other _ h'.1 rfl h'.2
  exact Option.some.inj (hentry.symm.trans hentry')

variable [DecidableEq Tag] [DecidableEq Address]

theorem agrees_init : Agrees (proxyCache Tag Address).init (identity (Tag × Impl Address)).init where
  sound := sound_init
  current := by simp [proxyCache, Cache.init, identity, Cache.Stands]
  made := rfl
  answers := rfl

theorem agrees_drop {t : Identity (Tag × Impl Address)} {object : Tag × Impl Address} {proxy : Nat}
    (h : Agrees s t) (hs : Sound (s.setStatus proxy .expired)) (hproxy : s.Stands object proxy)
    : Agrees (s.setStatus proxy .expired) (t.next (.forget object)) where
  sound := hs
  current := by
    intro other proxy'
    rw [stands_setStatus (by simp)]
    by_cases hother : other = object
    . rw [hother]
      simp only [next, Function.update_self]
      constructor
      . intro hnone
        contradiction
      . rintro ⟨hstands, hne⟩
        exact absurd (stands_unique h.sound hstands hproxy) hne
    . simp only [next, Function.update_of_ne hother, h.current]
      constructor
      . intro hstands
        refine ⟨hstands, ?_⟩
        rintro rfl
        have heq := Option.some.inj (hstands.1.symm.trans hproxy.1)
        rw [Proxy.mk.injEq] at heq
        exact hother (Prod.ext heq.1 heq.2.1)
      . exact And.left
  made := h.made.trans (made_setStatus _ _).symm
  answers := h.answers

theorem agrees_get {t : Identity (Tag × Impl Address)} {tag : Tag} {impl : Impl Address}
    {proxy : Nat} (h : Agrees s t) (hs : Sound (s.answer tag impl proxy))
    (hproxy : s.Stands (tag, impl) proxy) (hlocal : ∀ other, s.isLocal other = false)
    : Agrees (s.answer tag impl proxy) (t.next (.get (tag, impl))) := by
  have hcurrent : t.current (tag, impl) = some proxy := (h.current _ _).mpr hproxy
  rw [next_get_some hcurrent]
  exact
    { sound := hs
      current := by
        intro object other
        have hstands : (s.answer tag impl proxy).Stands object other ↔ s.Stands object other := by
          refine stands_congr ?_ ?_ object other
          . rfl
          . exact fun other => (hlocal other).symm
        rw [hstands]
        exact h.current object other
      made := by
        rw [h.made, made_eq_length hlocal]
        rfl
      answers := by simp [h.answers, Cache.answer] }

theorem agrees_emplace {t : Identity (Tag × Impl Address)} {tag : Tag} {impl : Impl Address}
    {proxy : Nat} (h : Agrees s t)
    (hs : Sound ((s.emplace ⟨tag, impl.address⟩ proxy).answer tag impl proxy))
    (hcritical : s.critical = some (.emplace tag impl proxy))
    : Agrees ((s.emplace ⟨tag, impl.address⟩ proxy).answer tag impl proxy)
        (t.next (.get (tag, impl))) := by
  rcases h.sound.critical _ hcritical with ⟨hkey, hproxy, hlength⟩
  have hlocal : ∀ other, s.isLocal other = decide (proxy = other) := by
    simp [Cache.isLocal, hcritical]
  have hmade : t.made = proxy := by
    rw [h.made, Cache.made, hcritical]
  have hnone : t.current (tag, impl) = none := by
    rw [Option.eq_none_iff_forall_ne_some]
    intro other hother
    have hstands := (h.current _ _).mp hother
    have hentry := h.sound.registered other _ hstands.1 rfl hstands.2
    rw [Proxy.key, hkey] at hentry
    contradiction
  rw [next_get_none hnone, hmade]
  exact
    { sound := hs
      current := by
        intro object other
        simp only [Cache.Stands, Cache.answer, Cache.emplace_proxies]
        by_cases hobject : object = (tag, impl)
        . rw [hobject, Function.update_self, Option.some.injEq]
          constructor
          . rintro rfl
            exact ⟨hproxy, rfl⟩
          . rintro ⟨hother, _⟩
            by_contra hne
            have hstands : s.Stands (tag, impl) other := ⟨hother, by simp [hlocal, hne]⟩
            rw [← h.current, hnone] at hstands
            contradiction
        . rw [Function.update_of_ne hobject, h.current]
          constructor
          . exact fun hstands => ⟨hstands.1, rfl⟩
          . rintro ⟨hother, _⟩
            refine ⟨hother, ?_⟩
            rw [hlocal, decide_eq_false_iff_not]
            rintro rfl
            rw [hproxy, Option.some.injEq, Proxy.mk.injEq] at hother
            exact hobject (Prod.ext hother.1.symm hother.2.1.symm)
      made := by
        rw [made_eq_length fun _ => rfl, Cache.answer, Cache.emplace_proxies, hlength]
      answers := by simp [h.answers, Cache.answer] }

theorem agrees_effect {t : Identity (Tag × Impl Address)} (h : Agrees s t) (heffect : Effect s s')
    : ∃ t', (identity (Tag × Impl Address)).Steps System.free t t' ∧ Agrees s' t' := by
  have hs' : Sound s' := sound_of_effect h.sound heffect
  cases heffect with
  | create
  | acquire
  | release => exact ⟨t, .refl t, h.congr hs' (stands_congr rfl fun _ => rfl) rfl rfl⟩
  | get tag impl hfree
  | remove proxy handle hproxy hfree =>
    refine ⟨t, .refl t, h.congr hs' (stands_congr rfl ?_) ?_ rfl⟩
    . simp [Cache.isLocal, hfree]
    . simp [Cache.made, hfree]
  | found tag impl existing hcritical
  | absent tag impl hcritical
  | pruned tag impl existing hcritical
  | removeFound proxy key existing hcritical =>
    refine ⟨t, .refl t, h.congr hs' (stands_congr rfl ?_) ?_ rfl⟩
    . simp [Cache.isLocal, hcritical]
    . simp [Cache.made, hcritical, Cache.erase]
  | drop proxy hlive hlocal =>
    rcases Cache.status_eq_some.mp hlive with ⟨⟨tag, impl, status⟩, hproxy, rfl⟩
    have hstands : s.Stands (tag, impl) proxy := ⟨hproxy, hlocal⟩
    exact ⟨_, .step (.refl t) trivial rfl, agrees_drop h hs' hstands⟩
  | upgraded tag impl existing hcritical hlive =>
    have howned : impl ∈ s.owned := argument_owned hcritical (List.mem_singleton.mpr rfl)
    have hwraps := wraps_of_entry h.sound howned (h.sound.critical _ hcritical)
    rcases hwraps with ⟨⟨tag', impl', status⟩, hproxy, rfl, rfl⟩
    rw [Cache.status, hproxy, Option.map_some, Option.some.injEq] at hlive
    dsimp only at hlive
    rw [hlive] at hproxy
    have hlocal : ∀ other, s.isLocal other = false := by simp [Cache.isLocal, hcritical]
    exact ⟨_, .step (.refl t) trivial rfl, agrees_get h hs' ⟨hproxy, hlocal existing⟩ hlocal⟩
  | allocated tag impl hcritical =>
    refine ⟨t, .refl t, h.congr hs' ?_ ?_ rfl⟩
    . intro object proxy
      exact stands_alloc hcritical object proxy
    . simp [Cache.made, hcritical]
  | emplaced tag impl proxy hcritical =>
    exact ⟨_, .step (.refl t) trivial rfl, agrees_emplace h hs' hcritical⟩
  | removeAbsent proxy key hcritical hentry =>
    have hlocal : ∀ other, s.isLocal other = false := by simp [Cache.isLocal, hcritical]
    have hremoving : s.Removing proxy key := h.sound.critical _ hcritical
    exact ⟨t, .refl t, h.congr hs' (stands_removed hremoving hlocal)
      (made_removed hlocal) rfl⟩
  | removeLive proxy key existing hcritical hlive =>
    have hlocal : ∀ other, s.isLocal other = false := by simp [Cache.isLocal, hcritical]
    have hremoving : s.Removing proxy key := (h.sound.critical _ hcritical).1
    exact ⟨t, .refl t, h.congr hs' (stands_removed hremoving hlocal)
      (made_removed hlocal) rfl⟩
  | removeErased proxy key existing hcritical hlive =>
    have hlocal : ∀ other, s.isLocal other = false := by simp [Cache.isLocal, hcritical]
    have hremoving : (s.erase key).Removing proxy key := (h.sound.critical _ hcritical).1
    have hmade : ((s.erase key).removed proxy).made = s.made :=
      made_removed (s := s.erase key) hlocal
    exact ⟨t, .refl t, h.congr hs' (stands_removed (s := s.erase key) hremoving hlocal) hmade rfl⟩
  | destroy proxy hremoved =>
    have hdead : s.status proxy ≠ some .live := by simp [hremoved]
    exact ⟨t, .refl t, h.congr hs' (stands_dead (by simp) hdead) (made_setStatus _ _) rfl⟩

theorem refines
    : System.Simulates (proxyCache Tag Address) (identity (Tag × Impl Address)) System.free
        Agrees := by
  refine ⟨agrees_init, ?_⟩
  intro s action s' t h _ hstep
  exact agrees_effect h (effect_of_step hstep)

structure KeepsIdentity (s : Cache Tag Address) : Prop where
  refined : ∃ t, (identity (Tag × Impl Address)).Reachable System.free t
    ∧ (∀ object proxy, t.current object = some proxy ↔ s.Stands object proxy)
    ∧ t.answers = s.answers.map fun answer => ((answer.tag, answer.impl), answer.proxy)
  same : ∀ a ∈ s.answers, ∀ b ∈ s.answers, a.tag = b.tag → a.impl = b.impl →
    s.status a.proxy = some .live → s.status b.proxy = some .live → a.proxy = b.proxy
  apart : ∀ a ∈ s.answers, ∀ b ∈ s.answers, a.proxy = b.proxy → a.tag = b.tag ∧ a.impl = b.impl

theorem stands_of_answer {t : Identity (Tag × Impl Address)} {answer : Answer Tag Address}
    (ht : (identity (Tag × Impl Address)).Reachable System.free t) (h : Agrees s t)
    (hanswer : answer ∈ s.answers) (hlive : s.status answer.proxy = some .live)
    : s.Stands (answer.tag, answer.impl) answer.proxy := by
  rcases h.sound.answered answer hanswer with ⟨⟨tag, impl, status⟩, hproxy, rfl, rfl⟩
  rw [Cache.status, hproxy, Option.map_some, Option.some.injEq] at hlive
  dsimp only at hlive
  rw [hlive] at hproxy
  refine ⟨hproxy, ?_⟩
  have hlt : answer.proxy < s.made := by
    rw [← h.made]
    apply (lt_made ht).2 ((answer.tag, answer.impl), answer.proxy)
    rw [h.answers]
    exact List.mem_map.mpr ⟨answer, hanswer, rfl⟩
  unfold Cache.isLocal
  split
  . next tag impl made hcritical =>
    rw [Cache.made, hcritical] at hlt
    dsimp only at hlt
    rw [decide_eq_false_iff_not]
    omega
  . rfl

theorem keeps_identity (h : (proxyCache Tag Address).Reachable System.free s) : KeepsIdentity s := by
  rcases refines.reachable h with ⟨t, ht, hagrees⟩
  exact
    { refined := ⟨t, ht, hagrees.current, hagrees.answers⟩
      same := by
        intro a ha b hb htag himpl hlive hlive'
        have hstands := stands_of_answer ht hagrees ha hlive
        rw [htag, himpl] at hstands
        exact stands_unique hagrees.sound hstands (stands_of_answer ht hagrees hb hlive')
      apart := by
        intro a ha b hb hproxy
        rcases hagrees.sound.answered a ha with ⟨handle, hhandle, htag, himpl⟩
        rcases hagrees.sound.answered b hb with ⟨handle', hhandle', htag', himpl'⟩
        rw [hproxy, hhandle', Option.some.injEq] at hhandle
        rw [← htag, ← himpl, ← htag', ← himpl', hhandle]
        exact ⟨rfl, rfl⟩ }

theorem keeps_identity_window : KeepsIdentity windowCache :=
  keeps_identity windowCache_reachable

-- the second proxy keeps its entry
example : windowCache.mapping ⟨(), 7⟩ = some 1 ∧ windowCache.status 0 = some .removed := by
  decide +kernel

end Djinni
