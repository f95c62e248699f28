import Mathlib.Logic.Function.Basic
import LedgerApp.Transition

/-!
The cache of the proxies that the bridge between the languages makes: the bodies of `get` and
`remove`, cut at each access to the map, while objects and proxies come and go at any time. `alloc`
always gives a proxy; that it throws is not modelled.
-/

namespace Djinni

variable {Tag Address : Type}

/-- An object that is wrapped. An address is used again when its object is gone, an `id` never is. -/
@[ext]
structure Impl (Address : Type) where
  id : Nat
  address : Address
deriving DecidableEq, Repr

structure Key (Tag Address : Type) where
  tag : Tag
  address : Address
deriving DecidableEq, Repr

/-- `removed` says that the `remove` of the handle is done, `destroyed` that its `m_obj` is gone. -/
inductive Status where
  | live
  | expired
  | removed
  | destroyed
deriving DecidableEq, Repr

/-- A proxy and its handle. -/
structure Proxy (Tag Address : Type) where
  tag : Tag
  impl : Impl Address
  status : Status
deriving DecidableEq, Repr

def Proxy.key (proxy : Proxy Tag Address) : Key Tag Address :=
  ⟨proxy.tag, proxy.impl.address⟩

/-- What the holder of `m_mutex` does next, with its arguments and what it has found. -/
inductive Critical (Tag Address : Type) where
  | find (tag : Tag) (impl : Impl Address)
  | upgrade (tag : Tag) (impl : Impl Address) (existing : Nat)
  | alloc (tag : Tag) (impl : Impl Address)
  | emplace (tag : Tag) (impl : Impl Address) (proxy : Nat)
  | removeFind (proxy : Nat) (key : Key Tag Address)
  | removeExpired (proxy : Nat) (key : Key Tag Address) (existing : Nat)
deriving DecidableEq, Repr

-- a caller of `get` keeps its object until the return
def Critical.argument : Critical Tag Address → List (Impl Address)
  | .find _ impl | .upgrade _ impl _ | .alloc _ impl | .emplace _ impl _ => [impl]
  | .removeFind _ _ | .removeExpired _ _ _ => []

structure Answer (Tag Address : Type) where
  tag : Tag
  impl : Impl Address
  proxy : Nat
deriving DecidableEq, Repr

/-- A proxy is known by its place in `proxies`; `held` has an entry for each reference to an object
outside the handles, and `answers` is what the calls of `get` have returned. -/
structure Cache (Tag Address : Type) where
  held : List (Impl Address)
  created : Nat
  proxies : List (Proxy Tag Address)
  mapping : Key Tag Address → Option Nat
  critical : Option (Critical Tag Address)
  answers : List (Answer Tag Address)

inductive Action (Tag Address : Type) where
  | create (address : Address)
  | acquire (impl : Impl Address)
  | release (impl : Impl Address)
  | get (tag : Tag) (impl : Impl Address)
  | drop (proxy : Nat)
  | remove (proxy : Nat)
  | proceed
  | destroy (proxy : Nat)
deriving DecidableEq, Repr

namespace Cache

def init : Cache Tag Address where
  held := []
  created := 0
  proxies := []
  mapping := fun _ => none
  critical := none
  answers := []

def argument (s : Cache Tag Address) : List (Impl Address) :=
  match s.critical with
  | some critical => critical.argument
  | none => []

-- the objects that exist
def owned (s : Cache Tag Address) : List (Impl Address) :=
  s.held ++ (s.proxies.filter (·.status ≠ .destroyed)).map (·.impl) ++ s.argument

def status (s : Cache Tag Address) (proxy : Nat) : Option Status :=
  s.proxies[proxy]?.map (·.status)

def setStatus (s : Cache Tag Address) (proxy : Nat) (status : Status) : Cache Tag Address :=
  { s with proxies := s.proxies.modify proxy fun proxy => { proxy with status := status } }

-- the proxy that a `get` has made and not returned yet
def isLocal (s : Cache Tag Address) (proxy : Nat) : Bool :=
  match s.critical with
  | some (.emplace _ _ made) => made = proxy
  | _ => false

def answer (s : Cache Tag Address) (tag : Tag) (impl : Impl Address) (proxy : Nat)
    : Cache Tag Address :=
  { s with critical := none, answers := s.answers ++ [⟨tag, impl, proxy⟩] }

-- the end of `remove`
def removed (s : Cache Tag Address) (proxy : Nat) : Cache Tag Address :=
  { s with critical := none }.setStatus proxy .removed

variable [DecidableEq Tag] [DecidableEq Address]

def erase (s : Cache Tag Address) (key : Key Tag Address) : Cache Tag Address :=
  { s with mapping := Function.update s.mapping key none }

-- an entry that is there already stays
def emplace (s : Cache Tag Address) (key : Key Tag Address) (proxy : Nat) : Cache Tag Address :=
  match s.mapping key with
  | some _ => s
  | none => { s with mapping := Function.update s.mapping key (some proxy) }

def proceed (s : Cache Tag Address) : Critical Tag Address → Cache Tag Address
  | .find tag impl =>
    match s.mapping ⟨tag, impl.address⟩ with
    | some existing => { s with critical := some (.upgrade tag impl existing) }
    | none => { s with critical := some (.alloc tag impl) }
  | .upgrade tag impl existing =>
    if s.status existing = some .live then
      s.answer tag impl existing
    else
      { s.erase ⟨tag, impl.address⟩ with critical := some (.alloc tag impl) }
  | .alloc tag impl =>
    { s with
      proxies := s.proxies ++ [⟨tag, impl, .live⟩]
      critical := some (.emplace tag impl s.proxies.length) }
  | .emplace tag impl proxy => (s.emplace ⟨tag, impl.address⟩ proxy).answer tag impl proxy
  | .removeFind proxy key =>
    match s.mapping key with
    | some existing => { s with critical := some (.removeExpired proxy key existing) }
    | none => s.removed proxy
  | .removeExpired proxy key existing =>
    if s.status existing = some .live then
      s.removed proxy
    else
      (s.erase key).removed proxy

end Cache

variable [DecidableEq Tag] [DecidableEq Address]

def step (s : Cache Tag Address) : Action Tag Address → Option (Cache Tag Address)
  | .create address =>
    if ∀ impl ∈ s.owned, impl.address ≠ address then
      some { s with held := ⟨s.created, address⟩ :: s.held, created := s.created + 1 }
    else
      none
  | .acquire impl => if impl ∈ s.owned then some { s with held := impl :: s.held } else none
  | .release impl => if impl ∈ s.held then some { s with held := s.held.erase impl } else none
  | .get tag impl =>
    if s.critical = none ∧ impl ∈ s.held then
      some { s with critical := some (.find tag impl) }
    else
      none
  | .drop proxy =>
    if s.status proxy = some .live ∧ s.isLocal proxy = false then
      some (s.setStatus proxy .expired)
    else
      none
  -- the destructor of the handle calls `cleanup` while it has the object
  | .remove proxy =>
    match s.proxies[proxy]? with
    | some handle =>
      if s.critical = none ∧ handle.status = .expired then
        some { s with critical := some (.removeFind proxy handle.key) }
      else
        none
    | none => none
  | .proceed => s.critical.map s.proceed
  | .destroy proxy =>
    if s.status proxy = some .removed then some (s.setStatus proxy .destroyed) else none

def proxyCache (Tag Address : Type) [DecidableEq Tag] [DecidableEq Address]
    : System (Cache Tag Address) (Action Tag Address) where
  init := .init
  step := step

end Djinni
