import LedgerApp.Lemmas.Jobs

/-!
Every closure answers on the response handle of the `start` it belongs to, however often the
platform uses it.
-/

namespace LedgerApp

open Bytes Json11

variable {F : Double} {υ : Type} {handlers : Handlers υ} {n n' : NodeState υ} {user : υ}
variable {start : Start} {cells cells' : List (Option Task)}

/-! ## The closures of one `start` -/

def HttpHandler.Own (start : Start) (cells : List (Option Task)) : HttpHandler → Prop
  | .token closure => closure = start.tokenReply
  | .transactions closure => ∃ cell token, closure = start.txReply cell
      ∧ Kept cells cell (.getTransactions (start.txTask token))

def Task.Own (start : Start) (cells : List (Option Task)) : Task → Prop
  | .reply callback _ => callback.Own start cells
  | .getTransactions closure => ∃ token, closure = start.txTask token
  | .update _ => True

def Call.Own (start : Start) (cells : List (Option Task)) : Call → Prop
  | .get _ _ _ callback => callback.cb.Own start cells
  | .execute _ task => task.Own start cells
  | .respond handle _ => handle = start.response
  | _ => True

theorem HttpHandler.Own.mono {callback : HttpHandler} (h : callback.Own start cells)
    (hcells : ∀ cell task, Kept cells cell task → Kept cells' cell task)
    : callback.Own start cells' := by
  cases callback with
  | token closure => exact h
  | transactions closure =>
    rcases h with ⟨cell, token, heq, hkept⟩
    exact ⟨cell, token, heq, hcells _ _ hkept⟩

theorem Task.Own.mono {task : Task} (h : task.Own start cells)
    (hcells : ∀ cell task, Kept cells cell task → Kept cells' cell task)
    : task.Own start cells' := by
  cases task with
  | reply callback resp => exact HttpHandler.Own.mono h hcells
  | getTransactions closure => exact h
  | update closure => trivial

theorem Call.Own.mono {call : Call} (h : call.Own start cells)
    (hcells : ∀ cell task, Kept cells cell task → Kept cells' cell task)
    : call.Own start cells' := by
  cases call with
  | get impl url header callback => exact HttpHandler.Own.mono h hcells
  | execute context task => exact Task.Own.mono h hcells
  | respond handle result => exact h
  | _ => trivial

theorem HttpHandler.Own.append {callback : HttpHandler} (h : callback.Own start cells)
    (more : List (Option Task)) : callback.Own start (cells ++ more) :=
  h.mono fun _ _ hkept => hkept.append more

theorem Call.Own.append {call : Call} (h : call.Own start cells) (more : List (Option Task))
    : call.Own start (cells ++ more) :=
  h.mono fun _ _ hkept => hkept.append more

theorem own_start (cells : List (Option Task))
    : ∀ call ∈ start.call start.testnetMode, call.Own start cells := by
  intro call hmem
  rcases Start.mem_call hmem with ⟨impl, rfl⟩
  rfl

theorem own_on {callback : HttpCallback} (h : callback.cb.Own start cells) (reply : Reply)
    : ∀ call ∈ callback.on reply, call.Own start cells := by
  intro call hmem
  rcases HttpCallback.mem_on hmem with ⟨context, rfl⟩
  exact h

theorem own_call {task : Task} {cell : Cell} {getObserver : HandleRef → Option Observer}
    (h : task.Own start cells) (hcell : Kept cells cell task)
    : ∀ call ∈ task.call F cell cells getObserver, call.Own start cells := by
  cases task with
  | reply callback resp =>
    cases callback with
    | token closure =>
      rw [show closure = start.tokenReply from h, Task.call, TokenReply.call_eq]
      split
      . simp [Call.Own, Start.tokenReply]
      . rw [Start.tokenContinuation_call]
        split
        . simp [Call.Own, Task.Own]
        . simp [Call.Own]
    | transactions closure =>
      rcases h with ⟨enclosing, token, rfl, hkept⟩
      rw [Task.call, TxReply.call_eq]
      split
      . rcases hkept with hkept | hkept
        . simp [Start.txReply, responseIn_of_present hkept, respondBy, Call.Own, Start.txTask]
        . simp [Start.txReply, responseIn_of_dropped hkept, respondBy, Call.Own]
      . split
        . intro call hmem
          rw [List.mem_append, StartCallback.call_eq, List.mem_cons] at hmem
          rcases hmem with hmem | rfl | hmem
          . rw [mem_printed hmem]
            trivial
          . rfl
          . split at hmem
            . rw [List.mem_singleton.mp hmem]
              trivial
            . simp at hmem
        . simp
  | getTransactions closure =>
    rcases h with ⟨token, rfl⟩
    rw [Task.call, Start.txTask_call]
    split
    . intro call hmem
      rw [List.mem_singleton.mp hmem]
      exact ⟨cell, token, rfl, hcell⟩
    . simp
  | update closure =>
    rw [Task.call, Update.call]
    split
    . simp [Call.Own]
    . simp [Call.Own]

/-! ## All closures in Node -/

def Request.Own (request : Request) (cells : List (Option Task)) (trace : List Event) : Prop :=
  ∃ start, .started request.origin start ∈ trace ∧ request.callback.cb.Own start cells

structure Job.Own (job : Job) (cells : List (Option Task)) (trace : List Event) : Prop where
  calls : ∃ start, .started job.origin start ∈ trace ∧ ∀ call ∈ job.calls, call.Own start cells
  request : ∀ request, job.request = some request → request.Own cells trace

structure OwnHandles (n : NodeState υ) : Prop where
  requests : ∀ request ∈ n.requests, request.Own n.cells n.trace
  raised : ∀ request ∈ n.raised, request.Own n.cells n.trace
  job : ∀ job, n.job = some job → job.Own n.cells n.trace
  responded : ∀ origin handle result, .called origin (.respond handle result) ∈ n.trace →
    ∃ start, .started origin start ∈ n.trace ∧ handle = start.response

theorem Request.Own.append {request : Request} {trace : List Event}
    (h : request.Own cells trace) (more : List (Option Task)) (later : List Event)
    : request.Own (cells ++ more) (trace ++ later) := by
  rcases h with ⟨start, hstarted, hown⟩
  exact ⟨start, List.mem_append_left _ hstarted, hown.append more⟩

theorem Request.Own.log {request : Request} {trace : List Event} (h : request.Own cells trace)
    (event : Event) : request.Own cells (trace ++ [event]) := by
  have := h.append [] [event]
  rw [List.append_nil] at this
  exact this

namespace OwnHandles

theorem init (user : υ) : OwnHandles (NodeState.init user) where
  requests := by simp [NodeState.init, World.init]
  raised := by simp [NodeState.init]
  job := by simp [NodeState.init]
  responded := by simp [NodeState.init, World.init]

theorem log {n n' : NodeState υ} (hn : OwnHandles n) {event : Event}
    (hcells : n'.cells = n.cells) (htrace : n'.trace = n.trace ++ [event])
    (hevent : ∀ origin call, event ≠ .called origin call)
    (hrequests : ∀ request ∈ n'.requests, request ∈ n.requests)
    (hraised : ∀ request ∈ n'.raised, request ∈ n.raised)
    (hjob : ∀ job, n'.job = some job → job.Own n'.cells n'.trace) : OwnHandles n' where
  requests := by
    intro request hmem
    rw [hcells, htrace]
    exact (hn.requests request (hrequests request hmem)).log event
  raised := by
    intro request hmem
    rw [hcells, htrace]
    exact (hn.raised request (hraised request hmem)).log event
  job := hjob
  responded := by
    intro origin handle result hmem
    rw [htrace, List.mem_append, List.mem_singleton] at hmem
    rcases hmem with hmem | hmem
    . rcases hn.responded origin handle result hmem with ⟨start, hstarted, heq⟩
      rw [htrace]
      exact ⟨start, List.mem_append_left _ hstarted, heq⟩
    . exact absurd hmem.symm (hevent origin _)

theorem enter {action : NodeAction} (hn : OwnHandles n) (hnone : n.job = none)
    (h : LedgerApp.enter n action = some n') : OwnHandles n' := by
  cases action with
  | createApi httpImpl threadDispatcher =>
    rw [enter_createApi h]
    exact ⟨hn.requests, hn.raised, by simp [hnone], hn.responded⟩
  | observerTransactionList api =>
    rcases enter_observerTransactionList h with ⟨lib, _, rfl⟩
    exact ⟨hn.requests, hn.raised, by simp [hnone], hn.responded⟩
  | start handle observer addresses options response =>
    rcases enter_start h with ⟨lib, start, calls, hstart, rfl⟩
    apply hn.log
    . rfl
    . rfl
    . simp
    . exact fun _ hmem => hmem
    . exact fun _ hmem => hmem
    . intro job hjob
      simp only [Option.some.injEq] at hjob
      rw [← hjob, calls_of_start hstart]
      refine ⟨⟨start, ?_, own_start _⟩, by simp⟩
      simp [World.log]
  | settle index reply =>
    rcases enter_settle h with ⟨request, hrequest, rfl⟩
    have hown := hn.requests request (List.mem_of_getElem? hrequest)
    apply hn.log
    . rfl
    . rfl
    . simp
    . exact fun _ hmem => List.mem_of_mem_eraseIdx hmem
    . exact fun _ hmem => hmem
    . intro job hjob
      simp only [Option.some.injEq] at hjob
      rw [← hjob]
      rcases hown.log (.replied request.origin request.callback.cb reply) with
        ⟨start, hstarted, hcallback⟩
      refine ⟨⟨start, hstarted, own_on hcallback reply⟩, ?_⟩
      intro other hother
      cases reply with
      | networkError err => simp [Request.chained] at hother
      | success code data =>
        simp only [Request.chained, Option.some.injEq] at hother
        rw [← hother]
        exact ⟨start, hstarted, hcallback⟩
  | caught index err =>
    rcases enter_caught h with ⟨request, hrequest, rfl⟩
    have hown := hn.raised request (List.mem_of_getElem? hrequest)
    apply hn.log
    . rfl
    . rfl
    . simp
    . exact fun _ hmem => hmem
    . exact fun _ hmem => List.mem_of_mem_eraseIdx hmem
    . intro job hjob
      simp only [Option.some.injEq] at hjob
      rw [← hjob]
      rcases hown.log (.replied request.origin request.callback.cb (.networkError err)) with
        ⟨start, hstarted, hcallback⟩
      exact ⟨⟨start, hstarted, own_on hcallback (.networkError err)⟩, by simp⟩
  | advance => contradiction

theorem finish_raised {job : Job} (hn : OwnHandles n) (hjob : n.job = some job)
    : ∀ request ∈ (n.finish job).raised, request.Own n.cells n.trace := by
  have hown := hn.job job hjob
  unfold NodeState.finish
  split
  . next request _ hrequest =>
    intro other hmem
    rw [List.mem_append, List.mem_singleton] at hmem
    rcases hmem with hmem | rfl
    . exact hn.raised other hmem
    . exact hown.request _ hrequest
  . exact hn.raised

theorem performed {job : Job} {call : Call} {calls : List Call} {later : List Event}
    {raised : Bool} (hn : OwnHandles n) (made : List Call) (hjob : n.job = some job)
    (hcalls : job.calls = call :: calls)
    (htrace : n'.trace = n.trace ++ .called job.origin call :: later)
    (hlater : ∀ event ∈ later, ∀ origin made, event ≠ .called origin made)
    (hcells : n'.cells = n.cells ++ tasks [call])
    (hrequests : n'.requests = n.requests ++ issued job.origin [call])
    (hraised : n'.raised = n.raised)
    (hjob' : n'.job = some { job with calls := made ++ calls, raised := raised })
    (hmade : ∀ start, call.Own start n'.cells → ∀ c ∈ made, c.Own start n'.cells)
    : OwnHandles n' := by
  have hown := hn.job job hjob
  rcases hown.calls with ⟨start, hstarted, hcallsOwn⟩
  have hcall : call.Own start n'.cells := by
    rw [hcells]
    apply Call.Own.append
    apply hcallsOwn
    rw [hcalls]
    exact List.mem_cons_self
  have hstarted' : .started job.origin start ∈ n'.trace := by
    rw [htrace]
    exact List.mem_append_left _ hstarted
  refine ⟨?_, ?_, ?_, ?_⟩
  . intro request hmem
    rw [hrequests, List.mem_append] at hmem
    rcases hmem with hmem | hmem
    . rw [hcells, htrace]
      exact (hn.requests request hmem).append _ _
    . cases call with
      | get impl url header callback =>
        simp only [issued, List.filterMap_cons, List.filterMap_nil, List.mem_singleton] at hmem
        rw [hmem]
        exact ⟨start, hstarted', hcall⟩
      | _ => simp [issued] at hmem
  . intro request hmem
    rw [hraised] at hmem
    rw [hcells, htrace]
    exact (hn.raised request hmem).append _ _
  . intro later' hlater'
    rw [hjob', Option.some.injEq] at hlater'
    rw [← hlater']
    refine ⟨⟨start, hstarted', ?_⟩, ?_⟩
    . intro c hc
      rw [List.mem_append] at hc
      rcases hc with hc | hc
      . exact hmade start hcall c hc
      . rw [hcells]
        apply Call.Own.append
        apply hcallsOwn
        rw [hcalls]
        exact List.mem_cons_of_mem _ hc
    . intro request hrequest
      rw [hcells, htrace]
      exact (hown.request request hrequest).append _ _
  . intro origin handle result hmem
    rw [htrace, List.mem_append, List.mem_cons] at hmem
    rcases hmem with hmem | hmem | hmem
    . rcases hn.responded origin handle result hmem with ⟨other, hother, heq⟩
      rw [htrace]
      exact ⟨other, List.mem_append_left _ hother, heq⟩
    . simp only [Event.called.injEq] at hmem
      rw [← hmem.2] at hcall
      rw [hmem.1]
      exact ⟨start, hstarted', hcall⟩
    . exact absurd rfl (hlater _ hmem origin _)

theorem advance (F : Double) (handlers : Handlers υ) {job : Job} (hn : OwnHandles n)
    (hjob : n.job = some job) : OwnHandles (n.advance F handlers job) := by
  rcases calls_cases job.calls with
    hlist | ⟨context, task, calls, hlist⟩ | ⟨call, calls, hlist, hcall⟩
  . rw [NodeState.advance_nil hlist]
    refine ⟨?_, ?_, ?_, ?_⟩
    . rw [NodeState.finish_toWorld]
      exact hn.requests
    . rw [NodeState.finish_toWorld]
      exact hn.finish_raised hjob
    . simp [NodeState.finish_job]
    . rw [NodeState.finish_toWorld]
      exact hn.responded
  . rw [NodeState.advance_execute hlist]
    apply hn.performed _ hjob hlist
    . exact List.append_assoc n.trace _ _
    . simp
    . rfl
    . rfl
    . rfl
    . rfl
    . intro start hown c hc
      exact own_call hown (.last task) c hc
  . rw [NodeState.advance_call hlist hcall]
    apply hn.performed [] hjob hlist
    . rfl
    . simp
    . rfl
    . rfl
    . rfl
    . rfl
    . simp

theorem step {action : NodeAction} (hn : OwnHandles n)
    (h : nodeStep F handlers n action = some n') : OwnHandles n' := by
  rcases nodeStep_cases h with ⟨hnone, henter⟩ | ⟨job, hjob, rfl, rfl⟩
  . exact hn.enter hnone henter
  . exact hn.advance F handlers hjob

end OwnHandles

theorem ownHandles_of_reachable {ok : NodeState υ → NodeAction → Prop}
    (h : (node F handlers user).Reachable ok n) : OwnHandles n := by
  apply h.invariant
  . exact OwnHandles.init user
  . intro t action u _ ht _ hstep
    exact ht.step hstep

end LedgerApp
