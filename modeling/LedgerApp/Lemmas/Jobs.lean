import LedgerApp.Lemmas.Node

/-!
What holds in Node whatever the handlers do. A `start` one of whose jobs raised makes no request any
more, all others are at one of their stages; and every closure answers on the response handle of the
`start` it belongs to.
-/

namespace LedgerApp

open Bytes Json11

variable {F : Double} {υ : Type} {handlers : Handlers υ} {n n' : NodeState υ} {user : υ}

/-! ## The calls of the handler of a network error -/

def Harmless : Call → Prop
  | .execute _ (.reply _ resp) => resp.error = true
  | .respond _ _ => True
  | .fault => True
  | _ => False

theorem harmless_onNetworkError (callback : HttpCallback) (err : Str)
    : ∀ call ∈ callback.onNetworkError err, Harmless call := by
  unfold HttpCallback.onNetworkError HttpCallback.cbWith
  split
  . simp [Harmless]
  . simp

theorem harmless_call {context : Context} {task : Task} {cell : Cell} {cells : List (Option Task)}
    {getObserver : HandleRef → Option Observer} (h : Harmless (.execute context task))
    : ∀ call ∈ task.call F cell cells getObserver, Harmless call := by
  cases task with
  | reply callback resp =>
    have herror : resp.error = true := h
    have hread : resp.read F = .error resp.errorMessage := by
      rw [HttpResponse.read, if_pos herror]
    cases callback with
    | token closure =>
      rw [Task.call, TokenReply.call_eq, hread]
      simp [Harmless]
    | transactions closure =>
      rw [Task.call, TxReply.call_eq, hread]
      dsimp only
      unfold respondBy
      split
      . simp [Harmless]
      . simp [Harmless]
  | _ => exact absurd h id

def Call.reports : Call → Bool
  | .respond _ _ => true
  | .onUpdate _ _ => true
  | _ => false

theorem reports_of_raises {call : Call} (h : (handlers.on call user).2 = true)
    : call.reports = true := by
  cases call with
  | respond handle result => rfl
  | onUpdate observer newData => rfl
  | _ => exact h

def Reported (origin : Nat) (trace : List Event) : Prop :=
  ∃ call, .called origin call ∈ trace ∧ call.reports = true

theorem Reported.append {origin : Nat} {t : List Event} (h : Reported origin t) (u : List Event)
    : Reported origin (t ++ u) := by
  rcases h with ⟨call, hmem, hreports⟩
  exact ⟨call, List.mem_append_left _ hmem, hreports⟩

theorem Stage.requests_of_reported {cells : List (Option Task)} {origin : Nat} {start : Start}
    {requests : List Request} {queue : List Runnable} {trace : List Event}
    (h : Stage F cells origin start requests queue trace) (hreported : Reported origin trace)
    : requests = [] := by
  rcases hreported with ⟨call, hmem, hreports⟩
  cases h with
  | tokenRequested p _ =>
    simp at hmem
    rw [hmem] at hreports
    contradiction
  | txRequested p _ _ =>
    simp at hmem
    rcases hmem with rfl | rfl | rfl | rfl
    . contradiction
    . contradiction
    . contradiction
    . contradiction
  | _ => rfl

/-! ## The parts of a state that a step changes -/

theorem queued_lib (n : NodeState υ) : n.queued.lib = n.lib := by
  unfold NodeState.queued
  split
  . rfl
  . rfl

-- the events and the closures only get more, since no closure is ever dropped in Node
structure Grown (w w' : World) : Prop where
  trace : ∃ later, w'.trace = w.trace ++ later
  cells : ∃ calls, w'.cells = w.cells ++ tasks calls

namespace Grown

variable {w w' : World}

theorem of_eq (htrace : w'.trace = w.trace) (hcells : w'.cells = w.cells) : Grown w w' where
  trace := ⟨[], by rw [htrace, List.append_nil]⟩
  cells := ⟨[], by rw [hcells]; exact (List.append_nil _).symm⟩

theorem logged {event : Event} (htrace : w'.trace = w.trace ++ [event])
    (hcells : w'.cells = w.cells) : Grown w w' where
  trace := ⟨_, htrace⟩
  cells := ⟨[], by rw [hcells]; exact (List.append_nil _).symm⟩

theorem perform (w : World) (origin : Nat) (calls : List Call)
    : Grown w (w.perform origin calls) where
  trace := ⟨_, rfl⟩
  cells := ⟨calls, rfl⟩

theorem log_of_perform (w : World) (origin : Nat) (calls : List Call) (event : Event)
    : Grown w ((w.perform origin calls).log event) where
  trace := ⟨_, List.append_assoc w.trace _ _⟩
  cells := ⟨calls, rfl⟩

theorem enter {action : NodeAction} (h : LedgerApp.enter n action = some n')
    : Grown n.toWorld n'.toWorld := by
  cases action with
  | createApi httpImpl threadDispatcher =>
    rw [enter_createApi h]
    exact of_eq rfl rfl
  | observerTransactionList api =>
    rcases enter_observerTransactionList h with ⟨lib, _, rfl⟩
    exact of_eq rfl rfl
  | start handle observer addresses options response =>
    rcases enter_start h with ⟨lib, start, calls, _, rfl⟩
    exact logged rfl rfl
  | settle index reply =>
    rcases enter_settle h with ⟨request, _, rfl⟩
    exact logged rfl rfl
  | caught index err =>
    rcases enter_caught h with ⟨request, _, rfl⟩
    exact logged rfl rfl
  | advance => contradiction

theorem advance (F : Double) (handlers : Handlers υ) (n : NodeState υ) (job : Job)
    : Grown n.toWorld (n.advance F handlers job).toWorld := by
  rcases calls_cases job.calls with
    hlist | ⟨context, task, calls, hlist⟩ | ⟨call, calls, hlist, hcall⟩
  . rw [NodeState.advance_nil hlist, NodeState.finish_toWorld]
    exact of_eq rfl rfl
  . rw [NodeState.advance_execute hlist]
    exact log_of_perform n.toWorld _ _ _
  . rw [NodeState.advance_call hlist hcall]
    exact perform n.toWorld _ _

theorem step {action : NodeAction} (h : nodeStep F handlers n action = some n')
    : Grown n.toWorld n'.toWorld := by
  rcases nodeStep_cases h with ⟨_, henter⟩ | ⟨job, _, _, rfl⟩
  . exact enter henter
  . exact advance F handlers n job

end Grown

/-! ## The stages in Node -/

structure NodeState.Spent (n : NodeState υ) (origin : Nat) : Prop where
  now : origin < n.lib.now
  requests : ∀ request ∈ n.requests, request.origin ≠ origin
  job : ∀ job, n.job = some job → job.origin = origin → ∀ call ∈ job.calls, Harmless call

structure Job.Held (job : Job) (trace : List Event) : Prop where
  request : ∀ request, job.request = some request → request.origin = job.origin
  raised : job.raised = true → Reported job.origin trace

structure Held (F : Double) (n : NodeState υ) : Prop where
  sequential : Sequential n
  ready : Ready n.queued
  follows : ∀ origin, Follows F n.queued origin ∨ n.Spent origin
  job : ∀ job, n.job = some job → job.Held n.trace
  raised : ∀ request ∈ n.raised, Reported request.origin n.trace

theorem issued_of_harmless {origin : Nat} {calls : List Call} (h : ∀ call ∈ calls, Harmless call)
    : issued origin calls = [] := by
  unfold issued
  rw [List.filterMap_eq_nil_iff]
  intro call hcall
  have := h call hcall
  cases call with
  | get impl url header callback => exact absurd this id
  | _ => rfl

theorem origin_of_mem_issued {origin : Nat} {calls : List Call} {request : Request}
    (h : request ∈ issued origin calls) : request.origin = origin := by
  rw [← owned_issued] at h
  exact (mem_owned.mp h).2

theorem lib_le_of_enter {action : NodeAction} (h : enter n action = some n')
    : n.lib.now ≤ n'.lib.now := by
  cases action with
  | createApi httpImpl threadDispatcher =>
    rw [enter_createApi h]
    exact Nat.le_succ _
  | observerTransactionList api =>
    rcases enter_observerTransactionList h with ⟨lib, hlib, rfl⟩
    dsimp only
    rw [observerTransactionList_now hlib]
  | start handle observer addresses options response =>
    rcases enter_start h with ⟨lib, start, calls, hstart, rfl⟩
    have := (started_of_start hstart).now
    dsimp only [World.log]
    omega
  | settle index reply =>
    rcases enter_settle h with ⟨request, _, rfl⟩
    exact Nat.le_refl _
  | caught index err =>
    rcases enter_caught h with ⟨request, _, rfl⟩
    exact Nat.le_refl _
  | advance => contradiction

theorem NodeState.Spent.enter {action : NodeAction} {origin : Nat} (hn : n.Spent origin)
    (hnone : n.job = none) (h : enter n action = some n') : n'.Spent origin := by
  have hnow := Nat.lt_of_lt_of_le hn.now (lib_le_of_enter h)
  cases action with
  | createApi httpImpl threadDispatcher =>
    rw [enter_createApi h] at hnow ⊢
    exact ⟨hnow, hn.requests, by simp [hnone]⟩
  | observerTransactionList api =>
    rcases enter_observerTransactionList h with ⟨lib, _, rfl⟩
    exact ⟨hnow, hn.requests, by simp [hnone]⟩
  | start handle observer addresses options response =>
    rcases enter_start h with ⟨lib, start, calls, _, rfl⟩
    refine ⟨hnow, hn.requests, ?_⟩
    intro job hjob horigin
    simp only [Option.some.injEq] at hjob
    rw [← hjob] at horigin
    exact absurd horigin (Nat.ne_of_gt hn.now)
  | settle index reply =>
    rcases enter_settle h with ⟨request, hrequest, rfl⟩
    refine ⟨hnow, ?_, ?_⟩
    . exact fun other hmem => hn.requests other (List.mem_of_mem_eraseIdx hmem)
    . intro job hjob horigin
      simp only [Option.some.injEq] at hjob
      rw [← hjob] at horigin
      exact absurd horigin (hn.requests request (List.mem_of_getElem? hrequest))
  | caught index err =>
    rcases enter_caught h with ⟨request, _, rfl⟩
    refine ⟨hnow, hn.requests, ?_⟩
    intro job hjob _
    simp only [Option.some.injEq] at hjob
    rw [← hjob]
    exact harmless_onNetworkError request.callback err
  | advance => contradiction

theorem NodeState.Spent.advance (F : Double) (handlers : Handlers υ) {origin : Nat} {job : Job}
    (hn : n.Spent origin) (hjob : n.job = some job) : (n.advance F handlers job).Spent origin := by
  have hharmless := hn.job job hjob
  have hrequests : ∀ call calls, job.calls = call :: calls →
      ∀ request ∈ n.requests ++ issued job.origin [call], request.origin ≠ origin := by
    intro call calls hlist request hmem
    rw [List.mem_append] at hmem
    rcases hmem with hmem | hmem
    . exact hn.requests request hmem
    . intro heq
      rw [origin_of_mem_issued hmem] at heq
      rw [hlist] at hharmless
      have hcall : ∀ c ∈ [call], Harmless c := by
        simpa using hharmless heq call
      rw [issued_of_harmless hcall] at hmem
      simp at hmem
  rcases calls_cases job.calls with
    hlist | ⟨context, task, calls, hlist⟩ | ⟨call, calls, hlist, hcall⟩
  . rw [NodeState.advance_nil hlist]
    refine ⟨?_, ?_, ?_⟩
    . rw [NodeState.finish_toWorld]
      exact hn.now
    . rw [NodeState.finish_toWorld]
      exact hn.requests
    . simp [NodeState.finish_job]
  . rw [NodeState.advance_execute hlist]
    refine ⟨hn.now, hrequests _ _ hlist, ?_⟩
    intro later hlater horigin
    simp only [Option.some.injEq] at hlater
    rw [← hlater] at horigin ⊢
    have hall := hharmless horigin
    rw [hlist] at hall
    intro c hc
    rw [List.mem_append] at hc
    rcases hc with hc | hc
    . exact harmless_call (hall _ List.mem_cons_self) c hc
    . exact hall c (List.mem_cons_of_mem _ hc)
  . rw [NodeState.advance_call hlist hcall]
    refine ⟨hn.now, hrequests _ _ hlist, ?_⟩
    intro later hlater horigin
    simp only [Option.some.injEq] at hlater
    rw [← hlater] at horigin ⊢
    rw [hlist] at hharmless
    exact fun c hc => hharmless horigin c (List.mem_cons_of_mem _ hc)

theorem NodeState.Spent.step {action : NodeAction} {origin : Nat} (hn : n.Spent origin)
    (h : nodeStep F handlers n action = some n') : n'.Spent origin := by
  rcases nodeStep_cases h with ⟨hnone, henter⟩ | ⟨job, hjob, rfl, rfl⟩
  . exact hn.enter hnone henter
  . exact hn.advance F handlers hjob

theorem mem_queued_trace {event : Event} (h : event ∈ n.trace) : event ∈ n.queued.trace := by
  rcases queued_trace n with ⟨later, htrace⟩
  rw [htrace]
  exact List.mem_append_left _ h

theorem Reported.traceOf {origin : Nat} (h : Reported origin n.trace)
    : Reported origin (n.queued.traceOf origin) := by
  rcases h with ⟨call, hmem, hreports⟩
  exact ⟨call, State.mem_traceOf.mpr ⟨mem_queued_trace hmem, rfl⟩, hreports⟩

theorem Reported.lt_now {origin : Nat} (h : Reported origin n.trace) (hn : Ready n.queued)
    : origin < n.lib.now := by
  rw [← queued_lib]
  apply hn.lt_now
  intro hunstarted
  rcases h.traceOf with ⟨call, hmem, _⟩
  rw [hunstarted.trace] at hmem
  simp at hmem

-- after an answer or an update nothing is requested, so an exception stops the `start`
theorem Follows.spent {origin : Nat} (h : Follows F n.queued origin)
    (hreported : Reported origin n.trace) (hnone : n.job = none)
    : ∀ request ∈ n.requests, request.origin ≠ origin := by
  intro request hmem horigin
  have hqueued : request ∈ n.queued.requests := by
    rw [queued_of_none hnone]
    exact hmem
  rw [← horigin] at h hreported
  rcases h.at_of_requests hqueued with ⟨start, hat⟩
  have hrequests := Stage.requests_of_reported hat hreported.traceOf
  have hown : request ∈ n.queued.requestsOf request.origin := mem_owned.mpr ⟨hqueued, rfl⟩
  rw [hrequests] at hown
  simp at hown

namespace Held

theorem init (user : υ) : Held F (NodeState.init user) where
  sequential := by simp [Sequential, NodeState.init]
  ready := Ready.init
  follows := fun _ => .inl (.inl ⟨rfl, rfl, rfl⟩)
  job := by simp [NodeState.init]
  raised := by simp [NodeState.init]

theorem ready_step {action : NodeAction} (hn : Held F n)
    (h : nodeStep F handlers n action = some n') : Ready n'.queued := by
  by_cases hcaught : ∃ index err, action = .caught index err
  . rcases hcaught with ⟨index, err, rfl⟩
    rcases nodeStep_cases h with ⟨hnone, henter⟩ | ⟨_, _, hadvance, _⟩
    . rcases caught_queued hnone henter with ⟨request, hrequest, hlib, hp⟩
      have hlt := (hn.raised request (List.mem_of_getElem? hrequest)).lt_now hn.ready
      rw [← queued_lib] at hlt
      apply hn.ready.performed hp rfl hlib hlt
      . simp
      . exact fun _ _ => rfl
      . exact fun _ _ => rfl
    . contradiction
  . rcases queued_step hn.sequential h (by simpa using hcaught) with heq | ⟨queued, hstep⟩
    . rw [heq]
      exact hn.ready
    . exact hn.ready.step hstep

theorem follows_step {action : NodeAction} {origin : Nat} (hn : Held F n)
    (hfollows : Follows F n.queued origin) (h : nodeStep F handlers n action = some n')
    : Follows F n'.queued origin ∨ n'.Spent origin := by
  by_cases hcaught : ∃ index err, action = .caught index err
  . rcases hcaught with ⟨index, err, rfl⟩
    rcases nodeStep_cases h with ⟨hnone, henter⟩ | ⟨_, _, hadvance, _⟩
    . rcases caught_queued hnone henter with ⟨request, hrequest, _, hp⟩
      have hreported := hn.raised request (List.mem_of_getElem? hrequest)
      by_cases hne : request.origin = origin
      . right
        rw [hne] at hreported
        have hidle : n.Spent origin := by
          refine ⟨hreported.lt_now hn.ready, hfollows.spent hreported hnone, ?_⟩
          simp [hnone]
        exact hidle.step h
      . exact .inl (hfollows.other hp rfl hne rfl rfl)
    . contradiction
  . left
    rcases queued_step hn.sequential h (by simpa using hcaught) with heq | ⟨queued, hstep⟩
    . rw [heq]
      exact hfollows
    . exact hfollows.step hn.ready hstep

theorem enter_job {action : NodeAction} (hnone : n.job = none) (h : enter n action = some n')
    : (∀ job, n'.job = some job → job.Held n'.trace)
        ∧ ∀ request ∈ n'.raised, request ∈ n.raised := by
  cases action with
  | createApi httpImpl threadDispatcher =>
    rw [enter_createApi h]
    simp [hnone]
  | observerTransactionList api =>
    rcases enter_observerTransactionList h with ⟨lib, _, rfl⟩
    simp [hnone]
  | start handle observer addresses options response =>
    rcases enter_start h with ⟨lib, start, calls, _, rfl⟩
    refine ⟨?_, fun _ hmem => hmem⟩
    intro job hjob
    simp only [Option.some.injEq] at hjob
    rw [← hjob]
    exact ⟨by simp, by simp⟩
  | settle index reply =>
    rcases enter_settle h with ⟨request, _, rfl⟩
    refine ⟨?_, fun _ hmem => hmem⟩
    intro job hjob
    simp only [Option.some.injEq] at hjob
    rw [← hjob]
    cases reply with
    | networkError err => exact ⟨by simp [Request.chained], by simp⟩
    | success code data => exact ⟨by simp [Request.chained], by simp⟩
  | caught index err =>
    rcases enter_caught h with ⟨request, _, rfl⟩
    refine ⟨?_, fun _ hmem => List.mem_of_mem_eraseIdx hmem⟩
    intro job hjob
    simp only [Option.some.injEq] at hjob
    rw [← hjob]
    exact ⟨by simp, by simp⟩
  | advance => contradiction

theorem finish_raised {job : Job} (hn : Held F n) (hjob : n.job = some job)
    : ∀ request ∈ (n.finish job).raised, Reported request.origin n.trace := by
  have hheld := hn.job job hjob
  unfold NodeState.finish
  split
  . next request hraised hrequest =>
    intro other hmem
    rw [List.mem_append, List.mem_singleton] at hmem
    rcases hmem with hmem | rfl
    . exact hn.raised other hmem
    . rw [hheld.request _ hrequest]
      exact hheld.raised hraised
  . exact hn.raised

theorem advance_job (handlers : Handlers υ) {job : Job} (hn : Held F n) (hjob : n.job = some job)
    : (∀ later, (n.advance F handlers job).job = some later →
          later.Held (n.advance F handlers job).trace)
        ∧ ∀ request ∈ (n.advance F handlers job).raised,
          Reported request.origin (n.advance F handlers job).trace := by
  have hheld := hn.job job hjob
  rcases calls_cases job.calls with
    hlist | ⟨context, task, calls, hlist⟩ | ⟨call, calls, hlist, hcall⟩
  . rw [NodeState.advance_nil hlist, NodeState.finish_job, NodeState.finish_toWorld]
    exact ⟨by simp, hn.finish_raised hjob⟩
  . rw [NodeState.advance_execute hlist]
    refine ⟨?_, fun request hmem => ((hn.raised request hmem).append _).append _⟩
    intro later hlater
    simp only [Option.some.injEq] at hlater
    rw [← hlater]
    exact ⟨hheld.request, fun hraised => ((hheld.raised hraised).append _).append _⟩
  . rw [NodeState.advance_call hlist hcall]
    refine ⟨?_, fun request hmem => (hn.raised request hmem).append _⟩
    intro later hlater
    simp only [Option.some.injEq] at hlater
    rw [← hlater]
    refine ⟨hheld.request, ?_⟩
    intro hraised
    rw [Bool.or_eq_true] at hraised
    rcases hraised with hraised | hraised
    . exact (hheld.raised hraised).append _
    . refine ⟨call, ?_, reports_of_raises hraised⟩
      simp [World.perform]

theorem step {action : NodeAction} (hn : Held F n) (h : nodeStep F handlers n action = some n')
    : Held F n' := by
  have hready := hn.ready_step h
  have hfollows : ∀ origin, Follows F n'.queued origin ∨ n'.Spent origin := by
    intro origin
    rcases hn.follows origin with hfollows | hspent
    . exact hn.follows_step hfollows h
    . exact .inr (hspent.step h)
  have hsequential := hn.sequential.step h
  rcases nodeStep_cases h with ⟨hnone, henter⟩ | ⟨job, hjob, rfl, rfl⟩
  . have hjob := enter_job hnone henter
    rcases (Grown.step h).trace with ⟨later, htrace⟩
    refine ⟨hsequential, hready, hfollows, hjob.1, ?_⟩
    intro request hmem
    rw [htrace]
    exact (hn.raised request (hjob.2 request hmem)).append later
  . have hadvance := hn.advance_job handlers hjob
    exact ⟨hsequential, hready, hfollows, hadvance.1, hadvance.2⟩

end Held

theorem held_of_reachable {ok : NodeState υ → NodeAction → Prop}
    (h : (node F handlers user).Reachable ok n) : Held F n := by
  apply h.invariant
  . exact Held.init user
  . intro t action u _ ht _ hstep
    exact ht.step hstep

theorem undropped_of_reachable {ok : NodeState υ → NodeAction → Prop}
    (h : (node F handlers user).Reachable ok n) : none ∉ n.cells := by
  apply h.invariant
  . simp [node, NodeState.init, World.init]
  . intro t action u _ ht _ hstep
    change nodeStep F handlers t action = some u at hstep
    rcases (Grown.step hstep).cells with ⟨calls, hcells⟩
    rw [hcells, List.mem_append]
    intro hmem
    rcases hmem with hmem | hmem
    . exact ht hmem
    . exact tasks_ne_none hmem

end LedgerApp
