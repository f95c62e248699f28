import LedgerApp.Lemmas.Stage
import LedgerApp.Ownership

/-!
In every reachable state each `start` is at one of its stages, whatever the other ones do.
-/

namespace LedgerApp

open Bytes Json11

variable {F : Double} {s s' : State}

/-! ## What a step does -/

structure Performed (s s' : State) (origin : Nat) (event : Event) (calls : List Call)
    (requests : List Request) (queue : List Runnable) : Prop where
  requests : s'.requests = requests ++ issued origin calls
  queue : s'.queue = queue ++ submitted origin s.cells.length calls
  cells : s'.cells = s.cells ++ tasks calls
  trace : s'.trace = s.trace ++ event :: calls.map (.called origin)

theorem step_createApi {httpImpl : Option HttpImpl} {threadDispatcher : ThreadDispatcher}
    (h : step F s (.createApi httpImpl threadDispatcher) = some s')
    : s' = { s with lib := s.lib.createApi httpImpl threadDispatcher } := by
  simp only [step, Option.some.injEq] at h
  exact h.symm

theorem step_observerTransactionList {api : Nat}
    (h : step F s (.observerTransactionList api) = some s')
    : ∃ lib, s.lib.observerTransactionList api = some lib ∧ s' = { s with lib := lib } := by
  simp only [step] at h
  split at h
  . next lib hlib =>
    simp only [Option.some.injEq] at h
    exact ⟨lib, hlib, h.symm⟩
  . contradiction

theorem calls_of_start {lib lib' : Lib} {handle : HandleRef} {observer : Observer}
    {addresses : List Str} {options : ApiOptions} {response : HandleResponse} {start : Start}
    {calls : List Call}
    (h : lib.start handle observer addresses options response = some (lib', start, calls))
    : calls = start.call start.testnetMode := by
  unfold Lib.start at h
  split at h
  . simp only [Option.some.injEq, Prod.mk.injEq] at h
    rw [← h.2.2, ← h.2.1]
    rfl
  . contradiction

theorem step_start {handle : HandleRef} {observer : Observer} {addresses : List Str}
    {options : ApiOptions} {response : HandleResponse}
    (h : step F s (.start handle observer addresses options response) = some s')
    : ∃ start, s.lib.start handle observer addresses options response
          = some (s'.lib, start, start.call start.testnetMode)
        ∧ Performed s s' s.lib.now (.started s.lib.now start) (start.call start.testnetMode)
            s.requests s.queue := by
  simp only [step] at h
  split at h
  . next lib start calls hstart =>
    simp only [Option.some.injEq] at h
    rw [← h, hstart, calls_of_start hstart]
    refine ⟨start, rfl, rfl, rfl, rfl, ?_⟩
    simp [State.perform, World.perform, World.log]
  . contradiction

theorem step_deliver {index : Nat} {reply : Reply} (h : step F s (.deliver index reply) = some s')
    : ∃ request, s.requests[index]? = some request ∧ s'.lib = s.lib
        ∧ Performed s s' request.origin (.replied request.origin request.callback.cb reply)
            (request.callback.on reply) (s.requests.eraseIdx index) s.queue := by
  simp only [step] at h
  split at h
  . next request hrequest =>
    simp only [Option.some.injEq] at h
    rw [← h]
    refine ⟨request, hrequest, rfl, rfl, rfl, rfl, ?_⟩
    simp [State.perform, World.perform, World.log]
  . contradiction

theorem step_run {index : Nat} (h : step F s (.run index) = some s')
    : ∃ runnable, s.queue[index]? = some runnable ∧ s'.lib = s.lib
        ∧ Performed s s' runnable.origin (.ran runnable) (s.body F runnable) s.requests
            (s.queue.eraseIdx index) := by
  simp only [step] at h
  split at h
  . next runnable hrunnable =>
    simp only [Option.some.injEq] at h
    rw [← h]
    refine ⟨runnable, hrunnable, rfl, rfl, rfl, rfl, ?_⟩
    simp [State.perform, World.perform, World.log]
  . contradiction

theorem step_drop {cell : Cell} (h : step F s (.drop cell) = some s')
    : (∀ runnable ∈ s.queue, runnable.cell ≠ cell)
        ∧ s' = { s with cells := s.cells.set cell none } := by
  simp only [step] at h
  split at h
  . next hcell =>
    simp only [Option.some.injEq] at h
    exact ⟨hcell.2, h.symm⟩
  . contradiction

/-! ## The view of one origin -/

namespace State

def requestsOf (s : State) (origin : Nat) : List Request :=
  owned Request.origin origin s.requests

def queueOf (s : State) (origin : Nat) : List Runnable :=
  owned Runnable.origin origin s.queue

def traceOf (s : State) (origin : Nat) : List Event :=
  owned Event.origin origin s.trace

structure Unstarted (s : State) (origin : Nat) : Prop where
  requests : s.requestsOf origin = []
  queue : s.queueOf origin = []
  trace : s.traceOf origin = []

def At (F : Double) (s : State) (origin : Nat) (start : Start) : Prop :=
  Stage F s.cells origin start (s.requestsOf origin) (s.queueOf origin) (s.traceOf origin)

end State

theorem owned_issued (origin : Nat) (calls : List Call)
    : owned Request.origin origin (issued origin calls) = issued origin calls := by
  apply owned_self
  intro request h
  simp only [issued, List.mem_filterMap] at h
  rcases h with ⟨call, _, h⟩
  cases call with
  | get impl url header callback =>
    simp only [Option.some.injEq] at h
    rw [← h]
  | _ => contradiction

theorem origin_of_mem_submitted {origin : Nat} {cell : Cell} {calls : List Call}
    : ∀ runnable ∈ submitted origin cell calls, runnable.origin = origin := by
  induction calls generalizing cell with
  | nil => simp [submitted]
  | cons call calls ih =>
    cases call with
    | execute context task =>
      simp only [submitted, List.mem_cons, forall_eq_or_imp, true_and]
      exact ih
    | _ => exact ih

theorem execute_of_mem_submitted {origin : Nat} {cell : Cell} {calls : List Call}
    {runnable : Runnable} (h : runnable ∈ submitted origin cell calls)
    : .execute runnable.context runnable.task ∈ calls := by
  induction calls generalizing cell with
  | nil => simp [submitted] at h
  | cons call calls ih =>
    cases call with
    | execute context task =>
      simp only [submitted, List.mem_cons] at h
      rcases h with rfl | h
      . simp
      . exact List.mem_cons_of_mem _ (ih h)
    | _ => exact List.mem_cons_of_mem _ (ih h)

theorem tasks_ne_none {calls : List Call} : none ∉ tasks calls := by
  intro h
  simp only [tasks, List.mem_filterMap] at h
  rcases h with ⟨call, _, h⟩
  cases call with
  | _ => simp at h

theorem owned_submitted (origin : Nat) (cell : Cell) (calls : List Call)
    : owned Runnable.origin origin (submitted origin cell calls) = submitted origin cell calls :=
  owned_self origin_of_mem_submitted

theorem origin_of_mem_called {event : Event} {origin : Nat} {calls : List Call}
    (hevent : event.origin = origin)
    : ∀ e ∈ event :: calls.map (.called origin), e.origin = origin := by
  intro e he
  rw [List.mem_cons, List.mem_map] at he
  rcases he with he | ⟨call, _, he⟩
  . rw [he]
    exact hevent
  . rw [← he]
    rfl

theorem State.mem_traceOf {event : Event} {origin : Nat}
    : event ∈ s.traceOf origin ↔ event ∈ s.trace ∧ event.origin = origin := mem_owned

theorem State.At.started_mem {origin : Nat} {start : Start} (h : s.At F origin start)
    : .started origin start ∈ s.trace := by
  have : Event.started origin start ∈ s.traceOf origin := by
    rw [h.started_mem_iff]
    exact ⟨rfl, rfl⟩
  exact (State.mem_traceOf.mp this).1

namespace Performed

variable {origin : Nat} {event : Event} {calls : List Call} {requests : List Request}
variable {queue : List Runnable}

theorem traceOf_self (h : Performed s s' origin event calls requests queue)
    (hevent : event.origin = origin)
    : s'.traceOf origin = s.traceOf origin ++ event :: calls.map (.called origin) := by
  unfold State.traceOf
  rw [h.trace, owned_append, owned_self (origin_of_mem_called hevent)]

theorem mem_trace {e : Event} (h : Performed s s' origin event calls requests queue)
    (he : e ∈ s'.trace) : e ∈ s.trace ∨ e = event ∨ ∃ call ∈ calls, .called origin call = e := by
  rw [h.trace, List.mem_append, List.mem_cons, List.mem_map] at he
  exact he

theorem mem_queue {runnable : Runnable} (h : Performed s s' origin event calls requests queue)
    (hmem : runnable ∈ s'.queue) : runnable ∈ queue
      ∨ runnable.origin = origin ∧ .execute runnable.context runnable.task ∈ calls := by
  rw [h.queue, List.mem_append] at hmem
  rcases hmem with hmem | hmem
  . exact .inl hmem
  . exact .inr ⟨origin_of_mem_submitted _ hmem, execute_of_mem_submitted hmem⟩

theorem at_self {start : Start} (h : Performed s s' origin event calls requests queue)
    (hevent : event.origin = origin) (hrequests : owned Request.origin origin requests = [])
    (hqueue : owned Runnable.origin origin queue = [])
    (hafter : Stage.After F s.cells origin start (s.traceOf origin) event calls)
    : s'.At F origin start := by
  unfold State.At
  rw [h.traceOf_self hevent]
  unfold State.requestsOf State.queueOf
  rw [h.requests, h.queue, h.cells, owned_append, owned_append, owned_issued, owned_submitted,
    hrequests, hqueue]
  exact hafter

theorem requestsOf_other {other : Nat} (h : Performed s s' origin event calls requests queue)
    (hne : origin ≠ other)
    (hrequests : owned Request.origin other requests = s.requestsOf other)
    : s'.requestsOf other = s.requestsOf other := by
  have : owned Request.origin other (issued origin calls) = [] := by
    rw [← owned_issued]
    apply owned_other _ hne
    intro a ha
    exact (mem_owned.mp ha).2
  rw [State.requestsOf, h.requests, owned_append, this, hrequests, List.append_nil]

theorem queueOf_other {other : Nat} (h : Performed s s' origin event calls requests queue)
    (hne : origin ≠ other) (hqueue : owned Runnable.origin other queue = s.queueOf other)
    : s'.queueOf other = s.queueOf other := by
  rw [State.queueOf, h.queue, owned_append, owned_other origin_of_mem_submitted hne, hqueue,
    List.append_nil]

theorem traceOf_other {other : Nat} (h : Performed s s' origin event calls requests queue)
    (hevent : event.origin = origin) (hne : origin ≠ other)
    : s'.traceOf other = s.traceOf other := by
  unfold State.traceOf
  rw [h.trace, owned_append, owned_other (origin_of_mem_called hevent) hne, List.append_nil]

end Performed

theorem State.Unstarted.other {origin other : Nat} {event : Event} {calls : List Call}
    {requests : List Request} {queue : List Runnable} (hs : s.Unstarted other)
    (h : Performed s s' origin event calls requests queue) (hevent : event.origin = origin)
    (hne : origin ≠ other) (hrequests : owned Request.origin other requests = s.requestsOf other)
    (hqueue : owned Runnable.origin other queue = s.queueOf other) : s'.Unstarted other := by
  refine ⟨?_, ?_, ?_⟩
  . rw [h.requestsOf_other hne hrequests, hs.requests]
  . rw [h.queueOf_other hne hqueue, hs.queue]
  . rw [h.traceOf_other hevent hne, hs.trace]

theorem State.At.other {origin other : Nat} {start : Start} {event : Event} {calls : List Call}
    {requests : List Request} {queue : List Runnable} (hs : s.At F other start)
    (h : Performed s s' origin event calls requests queue) (hevent : event.origin = origin)
    (hne : origin ≠ other) (hrequests : owned Request.origin other requests = s.requestsOf other)
    (hqueue : owned Runnable.origin other queue = s.queueOf other) : s'.At F other start := by
  unfold State.At
  rw [h.requestsOf_other hne hrequests, h.queueOf_other hne hqueue, h.traceOf_other hevent hne,
    h.cells]
  apply Stage.mono hs
  intro cell task hkept
  exact hkept.append _

/-! ## The steps of one `start` -/

theorem at_start {origin : Nat} {start : Start} (hs : s.Unstarted origin)
    (h : Performed s s' origin (.started origin start) (start.call start.testnetMode)
      s.requests s.queue) : s'.At F origin start := by
  apply h.at_self rfl hs.requests hs.queue
  rw [hs.trace]
  exact Stage.started s.cells origin start

theorem at_deliver {index : Nat} {request : Request} {reply : Reply} {start : Start}
    (hs : s.At F request.origin start) (hrequest : s.requests[index]? = some request)
    (h : Performed s s' request.origin (.replied request.origin request.callback.cb reply)
      (request.callback.on reply) (s.requests.eraseIdx index) s.queue)
    : s'.At F request.origin start := by
  unfold State.At at hs
  generalize hrequests : s.requestsOf request.origin = requests at hs
  have hmem : request ∈ requests := by
    rw [← hrequests, State.requestsOf, mem_owned]
    exact ⟨List.mem_of_getElem? hrequest, rfl⟩
  rcases hs.requests_eq hmem with rfl
  have herase := owned_eraseIdx_self hrequest rfl hrequests
  have hreplied := hs.replied reply
  exact h.at_self rfl herase.2 hreplied.1 hreplied.2

theorem at_run {index : Nat} {runnable : Runnable} {start : Start} {observer : Observer}
    (hs : s.At F runnable.origin start) (hrunnable : s.queue[index]? = some runnable)
    (hobserver : s.lib.getObserver start.handle = some observer)
    (h : Performed s s' runnable.origin (.ran runnable) (s.body F runnable) s.requests
      (s.queue.eraseIdx index)) : s'.At F runnable.origin start := by
  unfold State.At at hs
  generalize hqueue : s.queueOf runnable.origin = queue at hs
  have hmem : runnable ∈ queue := by
    rw [← hqueue, State.queueOf, mem_owned]
    exact ⟨List.mem_of_getElem? hrunnable, rfl⟩
  rcases hs.queue_eq hmem with rfl
  have herase := owned_eraseIdx_self hrunnable rfl hqueue
  have hran := hs.ran hobserver
  exact h.at_self rfl hran.1 herase.2 hran.2

/-! ## The library between two steps -/

theorem observerTransactionList_now {lib lib' : Lib} {api : Nat}
    (h : lib.observerTransactionList api = some lib') : lib'.now = lib.now := by
  unfold Lib.observerTransactionList at h
  split at h
  . simp only [Option.some.injEq] at h
    rw [← h]
  . contradiction

theorem getObserver_observerTransactionList {lib lib' : Lib} {api : Nat} {handle : HandleRef}
    {observer : Observer} (h : lib.observerTransactionList api = some lib')
    (hobserver : lib.getObserver handle = some observer)
    : lib'.getObserver handle = some observer := by
  unfold Lib.observerTransactionList at h
  split at h
  . simp only [Option.some.injEq] at h
    rw [← h]
    unfold Lib.getObserver at hobserver ⊢
    split at hobserver
    . next found hfound =>
      have hlt := (List.getElem?_eq_some_iff.mp hfound).1
      rw [List.getElem?_append_left hlt, hfound]
      exact hobserver
    . contradiction
  . contradiction

structure Started (lib lib' : Lib) (handle : HandleRef) (observer : Observer) (start : Start)
    : Prop where
  now : lib'.now = lib.now + 1
  getObserver : ∀ other, lib'.getObserver other =
    if other = handle then some observer else lib.getObserver other
  handle_eq : start.handle = handle
  observer_eq : start.observer = observer
  found : ∃ found, lib.handles[handle]? = some found ∧ start.http = found.http
    ∧ start.mainContext
        = found.threadDispatcher.getSerialExecutionContext lib.now mainExecutionContext
    ∧ start.backContext
        = found.threadDispatcher.getSerialExecutionContext lib.now backExecutionContext

theorem started_of_start {lib lib' : Lib} {handle : HandleRef} {observer : Observer}
    {addresses : List Str} {options : ApiOptions} {response : HandleResponse} {start : Start}
    {calls : List Call}
    (h : lib.start handle observer addresses options response = some (lib', start, calls))
    : Started lib lib' handle observer start := by
  unfold Lib.start at h
  split at h
  . next found hfound =>
    simp only [Option.some.injEq, Prod.mk.injEq] at h
    rw [← h.1, ← h.2.1]
    refine ⟨rfl, ?_, rfl, rfl, found, hfound, rfl, rfl, rfl⟩
    intro other
    have hlt := (List.getElem?_eq_some_iff.mp hfound).1
    unfold Lib.getObserver
    rw [List.getElem?_set]
    by_cases hother : other = handle
    . rw [if_pos hother.symm, if_pos hother, if_pos hlt]
    . rw [if_neg hother, if_neg (fun heq => hother heq.symm)]
  . contradiction

/-! ## The invariant -/

-- every `start` so far has an origin below `now`, and its handle has an observer
structure Ready (s : State) : Prop where
  fresh : ∀ origin, s.lib.now ≤ origin → s.Unstarted origin
  observed : ∀ origin start, .started origin start ∈ s.trace →
    ∃ observer, s.lib.getObserver start.handle = some observer

def Follows (F : Double) (s : State) (origin : Nat) : Prop :=
  s.Unstarted origin ∨ ∃ start, s.At F origin start

structure Tracked (F : Double) (s : State) : Prop extends Ready s where
  follows : ∀ origin, Follows F s origin

theorem started_of_performed {origin : Nat} {event : Event} {calls : List Call}
    {requests : List Request} {queue : List Runnable}
    (hp : Performed s s' origin event calls requests queue)
    (hevent : ∀ other start, event ≠ .started other start) {other : Nat} {start : Start}
    (h : .started other start ∈ s'.trace) : .started other start ∈ s.trace := by
  rcases hp.mem_trace h with h | h | ⟨call, _, h⟩
  . exact h
  . exact absurd h.symm (hevent other start)
  . simp at h

namespace Ready

theorem init : Ready State.init where
  fresh := fun _ _ => ⟨rfl, rfl, rfl⟩
  observed := by
    intro origin start h
    simp [State.init, World.init] at h

theorem lib (h : Ready s) {lib : Lib} (hnow : s.lib.now ≤ lib.now)
    (hobserver : ∀ handle observer, s.lib.getObserver handle = some observer →
      lib.getObserver handle = some observer) : Ready { s with lib := lib } where
  fresh := by
    intro origin horigin
    have := h.fresh origin (Nat.le_trans hnow horigin)
    exact ⟨this.requests, this.queue, this.trace⟩
  observed := by
    intro origin start hstarted
    rcases h.observed origin start hstarted with ⟨observer, hget⟩
    exact ⟨observer, hobserver _ _ hget⟩

theorem lt_now {origin : Nat} (h : Ready s) (hstarted : ¬s.Unstarted origin)
    : origin < s.lib.now := by
  by_cases hlt : origin < s.lib.now
  . exact hlt
  . exact absurd (h.fresh origin (Nat.le_of_not_lt hlt)) hstarted

theorem lt_now_of_requests {request : Request} (h : Ready s) (hmem : request ∈ s.requests)
    : request.origin < s.lib.now := by
  apply h.lt_now
  intro hunstarted
  have : request ∈ s.requestsOf request.origin := mem_owned.mpr ⟨hmem, rfl⟩
  rw [hunstarted.requests] at this
  simp at this

theorem lt_now_of_queue {runnable : Runnable} (h : Ready s) (hmem : runnable ∈ s.queue)
    : runnable.origin < s.lib.now := by
  apply h.lt_now
  intro hunstarted
  have : runnable ∈ s.queueOf runnable.origin := mem_owned.mpr ⟨hmem, rfl⟩
  rw [hunstarted.queue] at this
  simp at this

theorem performed {origin : Nat} {event : Event} {calls : List Call} {requests : List Request}
    {queue : List Runnable} (h : Ready s)
    (hp : Performed s s' origin event calls requests queue) (hevent : event.origin = origin)
    (hlib : s'.lib = s.lib) (horigin : origin < s.lib.now)
    (hstarted : ∀ other start, event ≠ .started other start)
    (hrequests : ∀ other, origin ≠ other →
      owned Request.origin other requests = s.requestsOf other)
    (hqueue : ∀ other, origin ≠ other → owned Runnable.origin other queue = s.queueOf other)
    : Ready s' where
  fresh := by
    intro other hother
    rw [hlib] at hother
    have hne : origin ≠ other := by omega
    exact (h.fresh other hother).other hp hevent hne (hrequests other hne) (hqueue other hne)
  observed := by
    intro other start hmem
    rw [hlib]
    exact h.observed other start (started_of_performed hp hstarted hmem)

theorem start {handle : HandleRef} {observer : Observer} {start : Start}
    (h : Ready s) (hlib : Started s.lib s'.lib handle observer start)
    (hp : Performed s s' s.lib.now (.started s.lib.now start) (start.call start.testnetMode)
      s.requests s.queue) : Ready s' where
  fresh := by
    intro other hother
    rw [hlib.now] at hother
    have hne : s.lib.now ≠ other := by omega
    exact (h.fresh other (by omega)).other hp rfl hne rfl rfl
  observed := by
    intro other start' hmem
    rw [hlib.getObserver]
    split
    . exact ⟨observer, rfl⟩
    . next hne =>
      rcases hp.mem_trace hmem with hmem | hmem | ⟨call, _, hmem⟩
      . exact h.observed other start' hmem
      . simp only [Event.started.injEq] at hmem
        rw [hmem.2] at hne
        exact absurd hlib.handle_eq hne
      . simp at hmem

theorem step (h : Ready s) {action : Action} (hstep : LedgerApp.step F s action = some s')
    : Ready s' := by
  cases action with
  | createApi httpImpl threadDispatcher =>
    rw [step_createApi hstep]
    apply h.lib
    . exact Nat.le_succ _
    . exact fun _ _ hget => hget
  | observerTransactionList api =>
    rcases step_observerTransactionList hstep with ⟨lib, hlib, rfl⟩
    apply h.lib
    . rw [observerTransactionList_now hlib]
    . exact fun _ _ hget => getObserver_observerTransactionList hlib hget
  | start handle observer addresses options response =>
    rcases step_start hstep with ⟨start, hstart, hp⟩
    exact h.start (started_of_start hstart) hp
  | deliver index reply =>
    rcases step_deliver hstep with ⟨request, hrequest, hlib, hp⟩
    have hlt := h.lt_now_of_requests (List.mem_of_getElem? hrequest)
    apply h.performed hp rfl hlib hlt
    . simp
    . exact fun _ hne => owned_eraseIdx_other hrequest hne
    . exact fun _ _ => rfl
  | run index =>
    rcases step_run hstep with ⟨runnable, hrunnable, hlib, hp⟩
    have hlt := h.lt_now_of_queue (List.mem_of_getElem? hrunnable)
    apply h.performed hp rfl hlib hlt
    . simp
    . exact fun _ _ => rfl
    . exact fun _ hne => owned_eraseIdx_other hrunnable hne
  | drop cell =>
    rcases step_drop hstep with ⟨_, rfl⟩
    refine ⟨?_, h.observed⟩
    intro origin horigin
    have := h.fresh origin horigin
    exact ⟨this.requests, this.queue, this.trace⟩

end Ready

namespace Follows

variable {origin : Nat}

theorem lib (h : Follows F s origin) (lib : Lib) : Follows F { s with lib := lib } origin := by
  rcases h with hunstarted | ⟨start, hat⟩
  . exact .inl ⟨hunstarted.requests, hunstarted.queue, hunstarted.trace⟩
  . exact .inr ⟨start, hat⟩

theorem other {owner : Nat} {event : Event} {calls : List Call} {requests : List Request}
    {queue : List Runnable} (h : Follows F s origin)
    (hp : Performed s s' owner event calls requests queue) (hevent : event.origin = owner)
    (hne : owner ≠ origin)
    (hrequests : owned Request.origin origin requests = s.requestsOf origin)
    (hqueue : owned Runnable.origin origin queue = s.queueOf origin) : Follows F s' origin := by
  rcases h with hunstarted | ⟨start, hat⟩
  . exact .inl (hunstarted.other hp hevent hne hrequests hqueue)
  . exact .inr ⟨start, hat.other hp hevent hne hrequests hqueue⟩

theorem at_of_requests {request : Request} (h : Follows F s request.origin)
    (hmem : request ∈ s.requests) : ∃ start, s.At F request.origin start := by
  rcases h with hunstarted | hat
  . have : request ∈ s.requestsOf request.origin := mem_owned.mpr ⟨hmem, rfl⟩
    rw [hunstarted.requests] at this
    simp at this
  . exact hat

theorem at_of_queue {runnable : Runnable} (h : Follows F s runnable.origin)
    (hmem : runnable ∈ s.queue) : ∃ start, s.At F runnable.origin start := by
  rcases h with hunstarted | hat
  . have : runnable ∈ s.queueOf runnable.origin := mem_owned.mpr ⟨hmem, rfl⟩
    rw [hunstarted.queue] at this
    simp at this
  . exact hat

theorem step {action : Action} (h : Follows F s origin) (hs : Ready s)
    (hstep : LedgerApp.step F s action = some s') : Follows F s' origin := by
  cases action with
  | createApi httpImpl threadDispatcher =>
    rw [step_createApi hstep]
    exact h.lib _
  | observerTransactionList api =>
    rcases step_observerTransactionList hstep with ⟨lib, _, rfl⟩
    exact h.lib lib
  | start handle observer addresses options response =>
    rcases step_start hstep with ⟨start, _, hp⟩
    by_cases hne : s.lib.now = origin
    . rw [← hne]
      exact .inr ⟨start, at_start (hs.fresh _ (Nat.le_refl _)) hp⟩
    . exact h.other hp rfl hne rfl rfl
  | deliver index reply =>
    rcases step_deliver hstep with ⟨request, hrequest, _, hp⟩
    by_cases hne : request.origin = origin
    . rw [← hne] at h ⊢
      rcases h.at_of_requests (List.mem_of_getElem? hrequest) with ⟨start, hat⟩
      exact .inr ⟨start, at_deliver hat hrequest hp⟩
    . exact h.other hp rfl hne (owned_eraseIdx_other hrequest hne) rfl
  | run index =>
    rcases step_run hstep with ⟨runnable, hrunnable, _, hp⟩
    by_cases hne : runnable.origin = origin
    . rw [← hne] at h ⊢
      rcases h.at_of_queue (List.mem_of_getElem? hrunnable) with ⟨start, hat⟩
      rcases hs.observed _ start hat.started_mem with ⟨observer, hobserver⟩
      exact .inr ⟨start, at_run hat hrunnable hobserver hp⟩
    . exact h.other hp rfl hne rfl (owned_eraseIdx_other hrunnable hne)
  | drop cell =>
    rcases step_drop hstep with ⟨_, rfl⟩
    rcases h with hunstarted | ⟨start, hat⟩
    . exact .inl ⟨hunstarted.requests, hunstarted.queue, hunstarted.trace⟩
    . exact .inr ⟨start, Stage.mono hat fun c task hkept => hkept.set cell⟩

end Follows

namespace Tracked

theorem at_of_mem {event : Event} (h : Tracked F s) (hmem : event ∈ s.trace)
    : ∃ start, .started event.origin start ∈ s.trace ∧ s.At F event.origin start := by
  rcases h.follows event.origin with hunstarted | ⟨start, hat⟩
  . have : event ∈ s.traceOf event.origin := State.mem_traceOf.mpr ⟨hmem, rfl⟩
    rw [hunstarted.trace] at this
    simp at this
  . exact ⟨start, hat.started_mem, hat⟩

theorem at_of_started {origin : Nat} {start : Start} (h : Tracked F s)
    (hmem : .started origin start ∈ s.trace) : s.At F origin start := by
  rcases h.at_of_mem hmem with ⟨start', _, hat⟩
  have htrace : .started origin start ∈ s.traceOf origin := State.mem_traceOf.mpr ⟨hmem, rfl⟩
  rw [(hat.started_mem_iff.mp htrace).2]
  exact hat

theorem at_of_queue {runnable : Runnable} (h : Tracked F s) (hmem : runnable ∈ s.queue)
    : ∃ start observer, .started runnable.origin start ∈ s.trace
        ∧ s.lib.getObserver start.handle = some observer
        ∧ Stage F s.cells runnable.origin start (s.requestsOf runnable.origin) [runnable]
            (s.traceOf runnable.origin) := by
  have hmem' : runnable ∈ s.queueOf runnable.origin := mem_owned.mpr ⟨hmem, rfl⟩
  rcases h.follows runnable.origin with hunstarted | ⟨start, hat⟩
  . rw [hunstarted.queue] at hmem'
    simp at hmem'
  . rcases h.observed _ start hat.started_mem with ⟨observer, hobserver⟩
    have hstarted := hat.started_mem
    unfold State.At at hat
    rw [hat.queue_eq hmem'] at hat
    exact ⟨start, observer, hstarted, hobserver, hat⟩

end Tracked

theorem tracked_of_reachable {ok : State → Action → Prop} (h : (machine F).Reachable ok s)
    : Tracked F s := by
  apply h.invariant
  . exact ⟨Ready.init, fun _ => .inl ⟨rfl, rfl, rfl⟩⟩
  . intro t action u _ ht _ hstep
    exact ⟨ht.toReady.step hstep, fun origin => (ht.follows origin).step ht.toReady hstep⟩

/-! ## A `start` with nothing pending -/

structure Idle (origin : Nat) (trace : List Event) (s : State) : Prop where
  requests : s.requestsOf origin = []
  queue : s.queueOf origin = []
  trace : s.traceOf origin = trace
  now : origin < s.lib.now

namespace Idle

theorem performed {origin other : Nat} {trace : List Event} {event : Event} {calls : List Call}
    {requests : List Request} {queue : List Runnable} (hs : Idle other trace s)
    (h : Performed s s' origin event calls requests queue) (hevent : event.origin = origin)
    (hne : origin ≠ other) (hnow : s.lib.now ≤ s'.lib.now)
    (hrequests : owned Request.origin other requests = s.requestsOf other)
    (hqueue : owned Runnable.origin other queue = s.queueOf other) : Idle other trace s' where
  requests := by rw [h.requestsOf_other hne hrequests, hs.requests]
  queue := by rw [h.queueOf_other hne hqueue, hs.queue]
  trace := by rw [h.traceOf_other hevent hne, hs.trace]
  now := Nat.lt_of_lt_of_le hs.now hnow

theorem ne_of_requests {origin : Nat} {trace : List Event} {request : Request}
    (hs : Idle origin trace s) (h : request ∈ s.requests) : request.origin ≠ origin := by
  intro heq
  have : request ∈ s.requestsOf origin := mem_owned.mpr ⟨h, heq⟩
  rw [hs.requests] at this
  simp at this

theorem ne_of_queue {origin : Nat} {trace : List Event} {runnable : Runnable}
    (hs : Idle origin trace s) (h : runnable ∈ s.queue) : runnable.origin ≠ origin := by
  intro heq
  have : runnable ∈ s.queueOf origin := mem_owned.mpr ⟨h, heq⟩
  rw [hs.queue] at this
  simp at this

theorem step {origin : Nat} {trace : List Event} {action : Action} (hs : Idle origin trace s)
    (hstep : LedgerApp.step F s action = some s') : Idle origin trace s' := by
  cases action with
  | createApi httpImpl threadDispatcher =>
    rw [step_createApi hstep]
    exact ⟨hs.requests, hs.queue, hs.trace, Nat.lt_succ_of_lt hs.now⟩
  | observerTransactionList api =>
    rcases step_observerTransactionList hstep with ⟨lib, hlib, rfl⟩
    refine ⟨hs.requests, hs.queue, hs.trace, ?_⟩
    dsimp only
    rw [observerTransactionList_now hlib]
    exact hs.now
  | start handle observer addresses options response =>
    rcases step_start hstep with ⟨start, hstart, hp⟩
    have hnow := (started_of_start hstart).now
    exact hs.performed hp rfl (Nat.ne_of_gt hs.now) (by omega) rfl rfl
  | deliver index reply =>
    rcases step_deliver hstep with ⟨request, hrequest, hlib, hp⟩
    have hne := hs.ne_of_requests (List.mem_of_getElem? hrequest)
    exact hs.performed hp rfl hne (by rw [hlib]) (owned_eraseIdx_other hrequest hne) rfl
  | run index =>
    rcases step_run hstep with ⟨runnable, hrunnable, hlib, hp⟩
    have hne := hs.ne_of_queue (List.mem_of_getElem? hrunnable)
    exact hs.performed hp rfl hne (by rw [hlib]) rfl (owned_eraseIdx_other hrunnable hne)
  | drop cell =>
    rcases step_drop hstep with ⟨_, rfl⟩
    exact ⟨hs.requests, hs.queue, hs.trace, hs.now⟩

theorem steps {origin : Nat} {trace : List Event} {ok : State → Action → Prop}
    (hs : Idle origin trace s) (h : (machine F).Steps ok s s') : Idle origin trace s' := by
  apply h.invariant hs
  intro t action u ht _ hstep
  exact ht.step hstep

end Idle

end LedgerApp
