import LedgerApp.Lemmas.Machine
import LedgerApp.Node

/-!
A run in Node as a run in the environment that queues: a job whose calls are half done is a state in
which all of them are done and the Runnable they submit is queued. Only the reaction to an exception
has no counterpart there, since it uses an `HttpCallback` for the second time.
-/

namespace LedgerApp

open Bytes Json11

variable {F : Double} {υ : Type} {handlers : Handlers υ} {n n' : NodeState υ} {user : υ}

/-! ## The order of the calls of one body -/

def ExecuteLast : List Call → Prop
  | [] => True
  | .execute _ _ :: calls => calls = []
  | _ :: calls => ExecuteLast calls

theorem executeLast_printed (json : Json F) {calls : List Call} (h : ExecuteLast calls)
    : ExecuteLast (printed json ++ calls) := by
  unfold printed
  split
  . exact h
  . exact h

theorem executeLast_start (start : Start) : ExecuteLast (start.call start.testnetMode) := by
  rw [Start.call_eq]
  split
  . trivial
  . trivial

theorem executeLast_cbWith (callback : HttpCallback) (resp : HttpResponse)
    : ExecuteLast (callback.cbWith resp) := by
  unfold HttpCallback.cbWith
  split
  . exact rfl
  . trivial

theorem executeLast_on (callback : HttpCallback) (reply : Reply)
    : ExecuteLast (callback.on reply) := by
  rw [HttpCallback.on_eq]
  exact executeLast_cbWith callback _

theorem executeLast_call (task : Task) (cell : Cell) (cells : List (Option Task))
    (getObserver : HandleRef → Option Observer)
    : ExecuteLast (task.call F cell cells getObserver) := by
  unfold Task.call
  split
  . rw [TokenReply.call_eq]
    split
    . trivial
    . unfold TokenContinuation.call
      split
      . exact rfl
      . trivial
  . rw [TxReply.call_eq]
    split
    . unfold respondBy
      split
      . trivial
      . trivial
    . split
      . apply executeLast_printed
        rw [StartCallback.call_eq]
        split
        . exact rfl
        . trivial
      . trivial
  . unfold TxTask.call Http.get
    split
    . split
      . trivial
      . trivial
    . trivial
  . unfold Update.call
    split
    . trivial
    . trivial

theorem calls_cases (calls : List Call)
    : calls = [] ∨ (∃ context task later, calls = .execute context task :: later)
      ∨ ∃ call later, calls = call :: later ∧ ∀ context task, call ≠ .execute context task := by
  cases calls with
  | nil => exact .inl rfl
  | cons call later =>
    cases call with
    | execute context task => exact .inr (.inl ⟨context, task, later, rfl⟩)
    | _ => exact .inr (.inr ⟨_, later, rfl, by simp⟩)

/-! ## The state in which all calls of the job are done -/

def World.queued (w : World) (origin : Nat) (calls : List Call) : State :=
  State.perform { toWorld := w, queue := [] } origin calls

def NodeState.queued (n : NodeState υ) : State :=
  match n.job with
  | some job => n.toWorld.queued job.origin job.calls
  | none => { toWorld := n.toWorld, queue := [] }

theorem queued_nil (w : World) (origin : Nat)
    : w.queued origin [] = { toWorld := w, queue := [] } := by
  simp [World.queued, State.perform, World.perform, issued, tasks, submitted]

theorem queued_cons (w : World) (origin : Nat) (call : Call) (calls : List Call)
    (h : ∀ context task, call ≠ .execute context task)
    : (w.perform origin [call]).queued origin calls = w.queued origin (call :: calls) := by
  cases call with
  | execute context task => exact absurd rfl (h context task)
  | get impl url header callback =>
    simp [World.queued, State.perform, World.perform, issued, tasks, submitted]
  | _ => simp [World.queued, State.perform, World.perform, issued, tasks, submitted]

theorem queued_execute (w : World) (origin : Nat) (context : Context) (task : Task)
    : step F (w.queued origin [.execute context task]) (.run 0)
        = some (((w.perform origin [.execute context task]).log
            (.ran { origin := origin, cell := w.cells.length, context, task })).queued origin
          ((w.perform origin [.execute context task]).body F
            { origin := origin, cell := w.cells.length, context, task })) := by
  simp [step, World.queued, State.perform, World.perform, submitted, World.body, World.log]

theorem queued_of_none (h : n.job = none) : n.queued = { toWorld := n.toWorld, queue := [] } := by
  unfold NodeState.queued
  rw [h]

theorem queued_of_some {job : Job} (h : n.job = some job)
    : n.queued = n.toWorld.queued job.origin job.calls := by
  unfold NodeState.queued
  rw [h]

theorem queued_trace (n : NodeState υ) : ∃ later, n.queued.trace = n.trace ++ later := by
  generalize hjob : n.job = job
  cases job with
  | none =>
    rw [queued_of_none hjob]
    exact ⟨[], by simp⟩
  | some job =>
    rw [queued_of_some hjob]
    exact ⟨_, rfl⟩

def Sequential (n : NodeState υ) : Prop :=
  ∀ job, n.job = some job → ExecuteLast job.calls

/-! ## What a step does -/

theorem nodeStep_cases {action : NodeAction} (h : nodeStep F handlers n action = some n')
    : n.job = none ∧ enter n action = some n'
      ∨ ∃ job, n.job = some job ∧ action = .advance ∧ n' = n.advance F handlers job := by
  generalize hjob : n.job = job
  cases job with
  | none =>
    simp only [nodeStep, hjob] at h
    exact .inl ⟨rfl, h⟩
  | some job =>
    cases action with
    | advance =>
      simp only [nodeStep, hjob, Option.some.injEq] at h
      exact .inr ⟨job, rfl, rfl, h.symm⟩
    | _ => simp [nodeStep, hjob] at h

namespace NodeState

variable {job : Job}

theorem finish_toWorld (n : NodeState υ) (job : Job) : (n.finish job).toWorld = n.toWorld := by
  unfold finish
  split
  . rfl
  . rfl

theorem finish_user (n : NodeState υ) (job : Job) : (n.finish job).user = n.user := by
  unfold finish
  split
  . rfl
  . rfl

theorem finish_job (n : NodeState υ) (job : Job) : (n.finish job).job = none := by
  unfold finish
  split
  . rfl
  . rfl

theorem advance_nil (h : job.calls = []) : n.advance F handlers job = n.finish job := by
  unfold advance
  rw [h]

theorem advance_execute {context : Context} {task : Task} {calls : List Call}
    (h : job.calls = .execute context task :: calls)
    : n.advance F handlers job =
        let runnable := { origin := job.origin, cell := n.cells.length, context, task }
        let w := n.toWorld.perform job.origin [.execute context task]
        { n with
          toWorld := w.log (.ran runnable)
          job := some { job with calls := w.body F runnable ++ calls } } := by
  unfold advance
  rw [h]

theorem advance_call {call : Call} {calls : List Call} (h : job.calls = call :: calls)
    (hcall : ∀ context task, call ≠ .execute context task)
    : n.advance F handlers job =
        { n with
          toWorld := n.toWorld.perform job.origin [call]
          user := (handlers.on call n.user).1
          job := some
            { job with calls := calls, raised := job.raised || (handlers.on call n.user).2 } } := by
  unfold advance
  rw [h]
  cases call with
  | execute context task => exact absurd rfl (hcall context task)
  | _ => rfl

end NodeState

theorem enter_createApi {httpImpl : Option HttpImpl} {threadDispatcher : ThreadDispatcher}
    (h : enter n (.createApi httpImpl threadDispatcher) = some n')
    : n' = { n with lib := n.lib.createApi httpImpl threadDispatcher } := by
  simp only [enter, Option.some.injEq] at h
  exact h.symm

theorem enter_observerTransactionList {api : Nat}
    (h : enter n (.observerTransactionList api) = some n')
    : ∃ lib, n.lib.observerTransactionList api = some lib ∧ n' = { n with lib := lib } := by
  simp only [enter] at h
  split at h
  . next lib hlib =>
    simp only [Option.some.injEq] at h
    exact ⟨lib, hlib, h.symm⟩
  . contradiction

theorem enter_start {handle : HandleRef} {observer : Observer} {addresses : List Str}
    {options : ApiOptions} {response : HandleResponse}
    (h : enter n (.start handle observer addresses options response) = some n')
    : ∃ lib start calls,
        n.lib.start handle observer addresses options response = some (lib, start, calls)
          ∧ n' = { n with
              toWorld := { n.toWorld with lib := lib }.log (.started n.lib.now start)
              job := some { origin := n.lib.now, request := none, calls, raised := false } } := by
  simp only [enter] at h
  split at h
  . next lib start calls hstart =>
    simp only [Option.some.injEq] at h
    exact ⟨lib, start, calls, hstart, h.symm⟩
  . contradiction

theorem enter_settle {index : Nat} {reply : Reply}
    (h : enter n (.settle index reply) = some n')
    : ∃ request, n.requests[index]? = some request
        ∧ n' = { n with
            toWorld := { n.toWorld with requests := n.requests.eraseIdx index }.log
              (.replied request.origin request.callback.cb reply)
            job := some
              { origin := request.origin, request := request.chained reply,
                calls := request.callback.on reply, raised := false } } := by
  simp only [enter] at h
  split at h
  . next request hrequest =>
    simp only [Option.some.injEq] at h
    exact ⟨request, hrequest, h.symm⟩
  . contradiction

theorem enter_caught {index : Nat} {err : Str} (h : enter n (.caught index err) = some n')
    : ∃ request, n.raised[index]? = some request
        ∧ n' = { n with
            toWorld := n.toWorld.log
              (.replied request.origin request.callback.cb (.networkError err))
            job := some
              { origin := request.origin, request := none,
                calls := request.callback.onNetworkError err, raised := false }
            raised := n.raised.eraseIdx index } := by
  simp only [enter] at h
  split at h
  . next request hrequest =>
    simp only [Option.some.injEq] at h
    exact ⟨request, hrequest, h.symm⟩
  . contradiction

theorem enter_executeLast {action : NodeAction} (hnone : n.job = none)
    (h : enter n action = some n') : Sequential n' := by
  intro job hjob
  cases action with
  | createApi httpImpl threadDispatcher =>
    rw [enter_createApi h] at hjob
    simp [hnone] at hjob
  | observerTransactionList api =>
    rcases enter_observerTransactionList h with ⟨lib, _, rfl⟩
    simp [hnone] at hjob
  | start handle observer addresses options response =>
    rcases enter_start h with ⟨lib, start, calls, hstart, rfl⟩
    simp only [Option.some.injEq] at hjob
    rw [← hjob, calls_of_start hstart]
    exact executeLast_start start
  | settle index reply =>
    rcases enter_settle h with ⟨request, _, rfl⟩
    simp only [Option.some.injEq] at hjob
    rw [← hjob]
    exact executeLast_on _ _
  | caught index err =>
    rcases enter_caught h with ⟨request, _, rfl⟩
    simp only [Option.some.injEq] at hjob
    rw [← hjob]
    exact executeLast_cbWith _ _
  | advance => contradiction

theorem enter_queued (F : Double) {action : NodeAction} (hnone : n.job = none)
    (h : enter n action = some n') (hcaught : ∀ index err, action ≠ .caught index err)
    : ∃ queued, step F n.queued queued = some n'.queued := by
  rw [queued_of_none hnone]
  cases action with
  | createApi httpImpl threadDispatcher =>
    refine ⟨.createApi httpImpl threadDispatcher, ?_⟩
    rw [enter_createApi h]
    simp [NodeState.queued, hnone, step]
  | observerTransactionList api =>
    rcases enter_observerTransactionList h with ⟨lib, hlib, rfl⟩
    refine ⟨.observerTransactionList api, ?_⟩
    simp [NodeState.queued, hnone, step, hlib]
  | start handle observer addresses options response =>
    rcases enter_start h with ⟨lib, start, calls, hstart, rfl⟩
    refine ⟨.start handle observer addresses options response, ?_⟩
    rw [queued_of_some rfl]
    simp [step, hstart, World.queued]
  | settle index reply =>
    rcases enter_settle h with ⟨request, hrequest, rfl⟩
    refine ⟨.deliver index reply, ?_⟩
    rw [queued_of_some rfl]
    simp [step, hrequest, World.queued]
  | caught index err => exact absurd rfl (hcaught index err)
  | advance => contradiction

theorem caught_queued {index : Nat} {err : Str} (hnone : n.job = none)
    (h : enter n (.caught index err) = some n')
    : ∃ request, n.raised[index]? = some request ∧ n'.queued.lib = n.queued.lib
        ∧ Performed n.queued n'.queued request.origin
            (.replied request.origin request.callback.cb (.networkError err))
            (request.callback.onNetworkError err) n.queued.requests n.queued.queue := by
  rcases enter_caught h with ⟨request, hrequest, rfl⟩
  refine ⟨request, hrequest, ?_, ?_⟩
  . rw [queued_of_none hnone, queued_of_some rfl]
    rfl
  . rw [queued_of_none hnone, queued_of_some rfl]
    refine ⟨rfl, rfl, rfl, ?_⟩
    simp [World.queued, State.perform, World.perform, World.log]

-- the calls of a job add nothing to what is already counted as done, and what they submit is run
theorem advance_queued (F : Double) (handlers : Handlers υ) {job : Job} (hjob : n.job = some job)
    (hcalls : ExecuteLast job.calls)
    : (n.advance F handlers job).queued = n.queued
      ∨ ∃ queued, step F n.queued queued = some (n.advance F handlers job).queued := by
  rw [queued_of_some hjob]
  rcases calls_cases job.calls with
    hlist | ⟨context, task, calls, hlist⟩ | ⟨call, calls, hlist, hcall⟩
  . left
    rw [NodeState.advance_nil hlist, hlist, queued_of_none (NodeState.finish_job n job),
      queued_nil, NodeState.finish_toWorld]
  . right
    rw [hlist] at hcalls ⊢
    refine ⟨.run 0, ?_⟩
    rw [NodeState.advance_execute hlist, show calls = [] from hcalls, queued_execute,
      queued_of_some rfl]
    simp
  . left
    rw [NodeState.advance_call hlist hcall, queued_of_some rfl, hlist]
    exact queued_cons _ _ _ _ hcall

theorem Sequential.tail {call : Call} {calls : List Call} (h : ExecuteLast (call :: calls))
    : ExecuteLast calls := by
  cases call with
  | execute context task =>
    rw [show calls = [] from h]
    trivial
  | _ => exact h

theorem Sequential.step {action : NodeAction} (hn : Sequential n)
    (h : nodeStep F handlers n action = some n') : Sequential n' := by
  rcases nodeStep_cases h with ⟨hnone, henter⟩ | ⟨job, hjob, rfl, rfl⟩
  . exact enter_executeLast hnone henter
  . have hcalls := hn job hjob
    intro later hlater
    rcases calls_cases job.calls with
      hlist | ⟨context, task, calls, hlist⟩ | ⟨call, calls, hlist, hcall⟩
    . rw [NodeState.advance_nil hlist, NodeState.finish_job] at hlater
      contradiction
    . rw [hlist] at hcalls
      rw [NodeState.advance_execute hlist, show calls = [] from hcalls] at hlater
      simp only [Option.some.injEq, List.append_nil] at hlater
      rw [← hlater]
      exact executeLast_call _ _ _ _
    . rw [hlist] at hcalls
      rw [NodeState.advance_call hlist hcall] at hlater
      simp only [Option.some.injEq] at hlater
      rw [← hlater]
      exact Sequential.tail hcalls

theorem queued_step {action : NodeAction} (hn : Sequential n)
    (h : nodeStep F handlers n action = some n')
    (hcaught : ∀ index err, action ≠ .caught index err)
    : n'.queued = n.queued ∨ ∃ queued, step F n.queued queued = some n'.queued := by
  rcases nodeStep_cases h with ⟨hnone, henter⟩ | ⟨job, hjob, rfl, rfl⟩
  . exact .inr (enter_queued F hnone henter hcaught)
  . exact advance_queued F handlers hjob (hn job hjob)

end LedgerApp
