import LedgerApp.Causality
import LedgerApp.Lemmas.Handles

/-!
How a failure reaches the promise that `getTransactions` returns. The text of a refused body does,
and the text of a rejected request does not, since `on_network_error` forgets it.
-/

namespace LedgerApp

open Bytes Json11

variable {F : Double} {V : Type} {jsonParse : Str → Option V} {n n' : NodeState (Promises V)}

/-! ## The steps of the interface -/

abbrev jsNode (F : Double) (jsonParse : Str → Option V)
    : System (NodeState (Promises V)) NodeAction :=
  node F (NJSItfHandleResponseImpl jsonParse) fun _ => .pending

theorem js_refines : System.Simulates (js F jsonParse) (jsNode F jsonParse) System.free
    (fun n m => n = m) := by
  refine ⟨rfl, ?_⟩
  intro n action n' m heq _ hstep
  rw [← heq]
  exact ⟨n', System.steps_of_exec hstep (System.along_free _ _), rfl⟩

theorem jsStep_of_single {action : JsAction} {single : NodeAction}
    (h : jsActions n action = [single])
    : jsStep F jsonParse n action = nodeStep F (NJSItfHandleResponseImpl jsonParse) n single := by
  unfold jsStep
  rw [h, System.exec_singleton]
  rfl

structure Called (n n' : NodeState (Promises V)) (start : Start) : Prop where
  context : start.http.context = some 0
  response : start.response = n.lib.handles.length
  handles : n'.lib.handles.length = n.lib.handles.length + 1
  user : n'.user = n.user
  trace : n'.trace = n.trace ++ [.started (n.lib.now + 1) start]

theorem called_lib {lib made lib' : Lib} {observer : Observer} {addresses : List Str}
    {options : ApiOptions} {response : HandleResponse} {start : Start} {calls : List Call}
    (hmade : (lib.createApi (some 0) NJSThreadDispatcherImpl).observerTransactionList
      lib.apis.length = some made)
    (hstart : made.start lib.handles.length observer addresses options response
      = some (lib', start, calls))
    : start.http.context = some 0 ∧ start.response = response
        ∧ lib'.handles.length = lib.handles.length + 1 ∧ made.now = lib.now + 1 := by
  simp [Lib.observerTransactionList, Lib.createApi] at hmade
  rw [← hmade] at hstart ⊢
  simp only [Lib.start, List.getElem?_concat_length, Option.some.injEq, Prod.mk.injEq] at hstart
  rw [← hstart.1, ← hstart.2.1]
  simp [NJSThreadDispatcherImpl]

theorem jsStep_getTransactions {addresses : List Str} {currency : ApiOptions}
    (h : jsStep F jsonParse n (.getTransactions addresses currency) = some n')
    : ∃ start, Called n n' start := by
  unfold jsStep jsActions getTransactionsActions at h
  rcases System.exec_cons.mp h with ⟨m, hm, h⟩
  rcases nodeStep_cases hm with ⟨hnone, henter⟩ | ⟨_, _, hadvance, _⟩
  . rw [enter_createApi henter] at h
    rcases System.exec_cons.mp h with ⟨m', hm', h⟩
    rw [System.exec_singleton] at h
    rcases nodeStep_cases hm' with ⟨hnone', henter'⟩ | ⟨_, _, hadvance, _⟩
    . rcases enter_observerTransactionList henter' with ⟨made, hmade, rfl⟩
      rcases nodeStep_cases h with ⟨_, henter''⟩ | ⟨_, _, hadvance, _⟩
      . rcases enter_start henter'' with ⟨lib', start, calls, hstart, rfl⟩
        rcases called_lib hmade hstart with ⟨hcontext, hresponse, hhandles, hnow⟩
        refine ⟨start, hcontext, hresponse, hhandles, rfl, ?_⟩
        rw [← hnow]
        rfl
      . contradiction
    . contradiction
  . contradiction

structure Worked (jsonParse : Str → Option V) (n n' : NodeState (Promises V)) (later : List Event)
    : Prop where
  lib : n'.lib = n.lib
  trace : n'.trace = n.trace ++ later
  started : ∀ origin start, .started origin start ∉ later
  user : n'.user = n.user ∨ ∃ origin call, .called origin call ∈ later
    ∧ n'.user = ((NJSItfHandleResponseImpl jsonParse).on call n.user).1

theorem worked_advance {job : Job} (F : Double)
    : ∃ later, Worked jsonParse n (n.advance F (NJSItfHandleResponseImpl jsonParse) job) later := by
  rcases calls_cases job.calls with
    hlist | ⟨context, task, calls, hlist⟩ | ⟨call, calls, hlist, hcall⟩
  . rw [NodeState.advance_nil hlist]
    refine ⟨[], ?_, ?_, by simp, .inl (NodeState.finish_user n job)⟩
    . rw [NodeState.finish_toWorld]
    . rw [NodeState.finish_toWorld, List.append_nil]
  . rw [NodeState.advance_execute hlist]
    refine ⟨_, rfl, List.append_assoc n.trace _ _, ?_, .inl rfl⟩
    simp
  . rw [NodeState.advance_call hlist hcall]
    refine ⟨_, rfl, rfl, ?_, .inr ⟨job.origin, call, ?_, rfl⟩⟩
    . simp
    . simp

theorem jsStep_cases {action : JsAction} (h : jsStep F jsonParse n action = some n')
    : (∃ start, Called n n' start) ∨ ∃ later, Worked jsonParse n n' later := by
  cases action with
  | getTransactions addresses currency => exact .inl (jsStep_getTransactions h)
  | settle index reply =>
    rw [jsStep_of_single rfl] at h
    rcases nodeStep_cases h with ⟨_, henter⟩ | ⟨_, _, hadvance, _⟩
    . rcases enter_settle henter with ⟨request, _, rfl⟩
      exact .inr ⟨_, rfl, rfl, by simp, .inl rfl⟩
    . contradiction
  | caught index err =>
    rw [jsStep_of_single rfl] at h
    rcases nodeStep_cases h with ⟨_, henter⟩ | ⟨_, _, hadvance, _⟩
    . rcases enter_caught henter with ⟨request, _, rfl⟩
      exact .inr ⟨_, rfl, rfl, by simp, .inl rfl⟩
    . contradiction
  | advance =>
    rw [jsStep_of_single rfl] at h
    rcases nodeStep_cases h with ⟨_, henter⟩ | ⟨job, _, _, rfl⟩
    . contradiction
    . exact .inr (worked_advance F)

/-! ## The promises -/

structure JsHeld (n : NodeState (Promises V)) : Prop where
  context : ∀ origin start, .started origin start ∈ n.trace → start.http.context = some 0
  below : ∀ origin start, .started origin start ∈ n.trace → start.response < n.lib.handles.length
  unique : ∀ origin start origin' start', .started origin start ∈ n.trace →
    .started origin' start' ∈ n.trace → start.response = start'.response → origin = origin'
  settled : ∀ handle, n.user handle ≠ .pending →
    ∃ origin result, .called origin (.respond handle result) ∈ n.trace

theorem JsHeld.getTransactions {start : Start} (hn : JsHeld n) (h : Called n n' start)
    : JsHeld n' := by
  have hmem : ∀ origin other, .started origin other ∈ n'.trace →
      .started origin other ∈ n.trace ∨ origin = n.lib.now + 1 ∧ other = start := by
    intro origin other hmem
    rw [h.trace, List.mem_append, List.mem_singleton, Event.started.injEq] at hmem
    exact hmem
  refine ⟨?_, ?_, ?_, ?_⟩
  . intro origin other hother
    rcases hmem origin other hother with hother | ⟨_, rfl⟩
    . exact hn.context origin other hother
    . exact h.context
  . intro origin other hother
    rw [h.handles]
    rcases hmem origin other hother with hother | ⟨_, rfl⟩
    . exact Nat.lt_succ_of_lt (hn.below origin other hother)
    . rw [h.response]
      exact Nat.lt_succ_self _
  . intro origin other origin' other' hother hother' heq
    rcases hmem origin other hother with hother | ⟨rfl, rfl⟩
    . rcases hmem origin' other' hother' with hother' | ⟨_, rfl⟩
      . exact hn.unique origin other origin' other' hother hother' heq
      . have := hn.below origin other hother
        rw [heq, h.response] at this
        exact absurd this (Nat.lt_irrefl _)
    . rcases hmem origin' other' hother' with hother' | ⟨rfl, _⟩
      . have := hn.below origin' other' hother'
        rw [← heq, h.response] at this
        exact absurd this (Nat.lt_irrefl _)
      . rfl
  . intro handle hsettled
    rw [h.user] at hsettled
    rcases hn.settled handle hsettled with ⟨origin, result, hcalled⟩
    rw [h.trace]
    exact ⟨origin, result, List.mem_append_left _ hcalled⟩

theorem Promise.settle_of_ne {promise settled : Promise V} (h : promise ≠ .pending)
    : promise.settle settled = promise := by
  cases promise with
  | pending => exact absurd rfl h
  | _ => rfl

theorem update_settle_of_ne {promises : Promises V} {handle : HandleResponse} {settled : Promise V}
    {other : HandleResponse} (h : promises other ≠ .pending)
    : Function.update promises handle ((promises handle).settle settled) other = promises other := by
  by_cases heq : other = handle
  . rw [heq] at h ⊢
    rw [Function.update_self, Promise.settle_of_ne h]
  . rw [Function.update_of_ne heq]

-- a promise is settled at most once, and only by an answer on its own response handle
theorem on_of_ne {call : Call} {promises : Promises V} {handle : HandleResponse}
    (h : promises handle ≠ .pending)
    : ((NJSItfHandleResponseImpl jsonParse).on call promises).1 handle = promises handle := by
  cases call with
  | respond other result =>
    simp only [Handlers.on, NJSItfHandleResponseImpl]
    split
    . exact update_settle_of_ne h
    . split
      . exact update_settle_of_ne h
      . rfl
  | _ => rfl

theorem on_settles {call : Call} {promises : Promises V} {handle : HandleResponse}
    (h : ((NJSItfHandleResponseImpl jsonParse).on call promises).1 handle ≠ promises handle)
    : ∃ result, call = .respond handle result := by
  cases call with
  | respond other result =>
    by_cases heq : handle = other
    . rw [heq]
      exact ⟨result, rfl⟩
    . simp only [Handlers.on, NJSItfHandleResponseImpl] at h
      split at h
      . exact absurd (Function.update_of_ne heq _ _) h
      . split at h
        . exact absurd (Function.update_of_ne heq _ _) h
        . exact absurd rfl h
  | _ => exact absurd rfl h

theorem JsHeld.worked {later : List Event} (hn : JsHeld n) (h : Worked jsonParse n n' later)
    : JsHeld n' := by
  have hmem : ∀ origin start, .started origin start ∈ n'.trace →
      .started origin start ∈ n.trace := by
    intro origin start hmem
    rw [h.trace, List.mem_append] at hmem
    rcases hmem with hmem | hmem
    . exact hmem
    . exact absurd hmem (h.started origin start)
  refine ⟨?_, ?_, ?_, ?_⟩
  . exact fun origin start hstart => hn.context origin start (hmem origin start hstart)
  . rw [h.lib]
    exact fun origin start hstart => hn.below origin start (hmem origin start hstart)
  . intro origin start origin' start' hstart hstart'
    exact hn.unique origin start origin' start' (hmem _ _ hstart) (hmem _ _ hstart')
  . intro handle hsettled
    rw [h.trace]
    by_cases hbefore : n.user handle = .pending
    . rcases h.user with huser | ⟨origin, call, hcall, huser⟩
      . rw [huser, hbefore] at hsettled
        contradiction
      . rw [huser] at hsettled
        rw [← hbefore] at hsettled
        rcases on_settles hsettled with ⟨result, rfl⟩
        exact ⟨origin, result, List.mem_append_right _ hcall⟩
    . rcases hn.settled handle hbefore with ⟨origin, result, hcalled⟩
      exact ⟨origin, result, List.mem_append_left _ hcalled⟩

theorem jsHeld_of_reachable {ok : NodeState (Promises V) → JsAction → Prop}
    (h : (js F jsonParse).Reachable ok n) : JsHeld n := by
  apply h.invariant
  . refine ⟨?_, ?_, ?_, ?_⟩
    . simp [js, NodeState.init, World.init]
    . simp [js, NodeState.init, World.init]
    . simp [js, NodeState.init, World.init]
    . simp [js, NodeState.init]
  . intro t action u _ ht _ hstep
    rcases jsStep_cases hstep with ⟨start, hcalled⟩ | ⟨later, hworked⟩
    . exact ht.getTransactions hcalled
    . exact ht.worked hworked

theorem user_of_steps {handle : HandleResponse} {promise : Promise V}
    (h : (js F jsonParse).Steps System.free n n') (hne : promise ≠ .pending)
    (hpromise : n.user handle = promise) : n'.user handle = promise := by
  apply h.invariant hpromise
  intro t action u ht _ hstep
  rcases jsStep_cases hstep with ⟨start, hcalled⟩ | ⟨later, hworked⟩
  . rw [hcalled.user, ht]
  . rcases hworked.user with huser | ⟨origin, call, _, huser⟩
    . rw [huser, ht]
    . rw [huser, on_of_ne, ht]
      rw [ht]
      exact hne

/-! ## One failure -/

inductive Fails (F : Double) : Reply → Str → Prop
  | rejected (err : Str) (herr : err ≠ []) : Fails F (.networkError err) err
  | refused (httpCode : Int16) (data e : Str) (he : parseText F data = .error e)
    : Fails F (.success httpCode data) e

theorem Fails.ne_nil {reply : Reply} {text : Str} (h : Fails F reply text) : text ≠ [] := by
  cases h with
  | rejected err herr => exact herr
  | refused httpCode data e he => exact parseText_error_ne_nil he

theorem Fails.read {reply : Reply} {text : Str} (h : Fails F reply text)
    : ∃ e, reply.read F = .error e ∧ ((∃ httpCode data, reply = .success httpCode data) → e = text)
        ∧ ((∃ err, reply = .networkError err) → e = []) := by
  cases h with
  | rejected err herr => exact ⟨[], rfl, by simp, by simp⟩
  | refused httpCode data e he => exact ⟨_, he, by simp, by simp⟩

section

variable {cells : List (Option Task)} {origin : Nat} {start : Start} {requests : List Request}
variable {queue : List Runnable} {trace : List Event}

theorem Stage.request_cases {request : Request}
    (h : Stage F cells origin start requests queue trace) (hmem : request ∈ requests)
    : responds origin trace = [] ∧ request.callback.context = start.http.context
        ∧ request.callback.cb.Own start cells := by
  cases h with
  | tokenRequested p h =>
    rw [List.mem_singleton.mp hmem]
    exact ⟨by simp [responds, Call.answer], rfl, rfl⟩
  | txRequested p h hcell =>
    rw [List.mem_singleton.mp hmem]
    refine ⟨by simp [responds, Call.answer], rfl, p.txCell, p.token, rfl, hcell⟩
  | _ => simp at hmem

theorem failed_call {callback : HttpHandler} {resp : HttpResponse} {cell : Cell} {e : Str}
    {getObserver : HandleRef → Option Observer} (hown : callback.Own start cells)
    (hcells : none ∉ cells) (hread : resp.read F = .error e)
    : (Task.reply callback resp).call F cell cells getObserver
        = [.respond start.response { error := e, result := [] }] := by
  cases callback with
  | token closure =>
    rw [Task.call, TokenReply.call_eq, hread, show closure = start.tokenReply from hown]
    rfl
  | transactions closure =>
    rcases hown with ⟨enclosing, token, rfl, hkept⟩
    rw [Task.call, TxReply.call_eq, hread]
    rcases hkept with hkept | hkept
    . rw [Start.txReply, responseIn_of_present hkept]
      rfl
    . exact absurd (List.mem_of_getElem? hkept) hcells

end

def failureEvents (request : Request) (context : Context) (reply : Reply) (cell : Cell)
    (answer : Call) : List Event :=
  let task : Task := .reply request.callback.cb reply.response
  [.replied request.origin request.callback.cb reply,
    .called request.origin (.execute context task),
    .ran { origin := request.origin, cell, context, task }, .called request.origin answer]

theorem jsStep_advance {job : Job} (hjob : n.job = some job)
    : (js F jsonParse).step n .advance
        = some (n.advance F (NJSItfHandleResponseImpl jsonParse) job) := by
  change jsStep F jsonParse n .advance = _
  rw [jsStep_of_single rfl]
  simp only [nodeStep, hjob]

theorem exec_run (jsonParse : Str → Option V) {job : Job} {context : Context} {task : Task}
    {call : Call} (hjob : n.job = some job) (hcalls : job.calls = [.execute context task])
    (hbody : task.call F n.cells.length (n.cells ++ [some task]) n.lib.getObserver = [call])
    (hcall : ∀ context task, call ≠ .execute context task)
    : ∃ n', (js F jsonParse).exec n [.advance, .advance, .advance] = some n' ∧ n'.job = none
        ∧ n'.user = ((NJSItfHandleResponseImpl jsonParse).on call n.user).1
        ∧ n'.trace = n.trace ++ [.called job.origin (.execute context task),
            .ran { origin := job.origin, cell := n.cells.length, context, task },
            .called job.origin call] := by
  let handlers := NJSItfHandleResponseImpl jsonParse
  let w := n.toWorld.perform job.origin [.execute context task]
  let runnable : Runnable := { origin := job.origin, cell := n.cells.length, context, task }
  let answering : Job := { job with calls := [call] }
  let ran : NodeState (Promises V) :=
    { n with toWorld := w.log (.ran runnable), job := some answering }
  have hran : n.advance F handlers job = ran := by
    have hmade : w.body F runnable = [call] := hbody
    rw [NodeState.advance_execute hcalls]
    dsimp only
    rw [hmade]
    rfl
  let left : Job := { job with calls := [], raised := job.raised || (handlers.on call n.user).2 }
  let done : NodeState (Promises V) :=
    { ran with
      toWorld := ran.toWorld.perform job.origin [call]
      user := (handlers.on call n.user).1
      job := some left }
  have hdone : ran.advance F handlers answering = done := NodeState.advance_call rfl hcall
  have hleft : done.advance F handlers left = done.finish left := NodeState.advance_nil rfl
  refine ⟨done.finish left, ?_, NodeState.finish_job _ _, ?_, ?_⟩
  . rw [System.exec_cons]
    refine ⟨ran, by rw [jsStep_advance hjob, hran], ?_⟩
    rw [System.exec_cons]
    refine ⟨done, by rw [jsStep_advance rfl, hdone], ?_⟩
    rw [System.exec_singleton, jsStep_advance rfl, hleft]
  . exact NodeState.finish_user _ _
  . rw [NodeState.finish_toWorld]
    simp [done, ran, w, runnable, World.perform, World.log]

theorem exec_failed {index : Nat} {request : Request} {context : Context} {reply : Reply} {e : Str}
    {start : Start} (hnone : n.job = none) (hrequest : n.requests[index]? = some request)
    (hcontext : request.callback.context = some context)
    (hown : request.callback.cb.Own start n.cells) (hcells : none ∉ n.cells)
    (hread : reply.read F = .error e)
    : ∃ n', (js F jsonParse).exec n [.settle index reply, .advance, .advance, .advance] = some n'
        ∧ n'.job = none
        ∧ n'.user = ((NJSItfHandleResponseImpl jsonParse).respond start.response
            { error := e, result := [] } n.user).1
        ∧ n'.trace = n.trace ++ failureEvents request context reply n.cells.length
            (.respond start.response { error := e, result := [] }) := by
  let task : Task := .reply request.callback.cb reply.response
  have hon : request.callback.on reply = [.execute context task] := by
    rw [HttpCallback.on_eq, HttpCallback.cbWith, hcontext]
  let job : Job :=
    { origin := request.origin, request := request.chained reply,
      calls := request.callback.on reply, raised := false }
  let settled : NodeState (Promises V) :=
    { n with
      toWorld := { n.toWorld with requests := n.requests.eraseIdx index }.log
        (.replied request.origin request.callback.cb reply)
      job := some job }
  have hsettle : (js F jsonParse).step n (.settle index reply) = some settled := by
    change jsStep F jsonParse n (.settle index reply) = some settled
    rw [jsStep_of_single rfl]
    simp [nodeStep, enter, hnone, hrequest, settled, job]
  have hbody : task.call F n.cells.length (n.cells ++ [some task]) n.lib.getObserver
      = [.respond start.response { error := e, result := [] }] := by
    apply failed_call (hown.append _)
    . simpa using hcells
    . rw [Reply.read_response, hread]
  have hjob : settled.job = some job := rfl
  rcases exec_run jsonParse hjob hon hbody (by simp) with ⟨n', hexec, hnone', huser, htrace⟩
  refine ⟨n', System.exec_cons.mpr ⟨settled, hsettle, hexec⟩, hnone', huser, ?_⟩
  rw [htrace]
  simp [settled, World.log, failureEvents, job, task]

structure FailureReported (F : Double) (jsonParse : Str → Option V) (n : NodeState (Promises V))
    (origin : Nat) (start : Start) (text : Str) : Prop where
  nonempty : text ≠ []
  responded : responds origin n.trace = [(start.response, { error := text, result := [] })]
  rejected : ∀ later, (js F jsonParse).Steps System.free n later →
    later.user start.response = .rejected text

theorem request_pending (hn : (jsNode F jsonParse).Reachable System.free n) (hnone : n.job = none)
    {request : Request} (hmem : request ∈ n.requests) {start : Start}
    (hstarted : .started request.origin start ∈ n.trace)
    : responds request.origin n.trace = [] ∧ request.callback.context = start.http.context
        ∧ request.callback.cb.Own start n.cells := by
  have hheld := held_of_reachable hn
  have hqueued : request ∈ n.queued.requests := by
    rw [queued_of_none hnone]
    exact hmem
  rcases hheld.follows request.origin with hfollows | hspent
  . rcases hfollows.at_of_requests hqueued with ⟨start', hat⟩
    have htrace : .started request.origin start ∈ n.queued.traceOf request.origin :=
      State.mem_traceOf.mpr ⟨mem_queued_trace hstarted, rfl⟩
    have hown : request ∈ n.queued.requestsOf request.origin := mem_owned.mpr ⟨hqueued, rfl⟩
    have hcases := Stage.request_cases hat hown
    rw [← (hat.started_mem_iff.mp htrace).2, responds_traceOf, queued_of_none hnone] at hcases
    exact hcases
  . exact absurd rfl (hspent.requests request hmem)

theorem promise_pending (hn : (js F jsonParse).Reachable System.free n)
    (hnode : (jsNode F jsonParse).Reachable System.free n) {origin : Nat} {start : Start}
    (hstarted : .started origin start ∈ n.trace) (hresponds : responds origin n.trace = [])
    : n.user start.response = .pending := by
  have hheld := jsHeld_of_reachable hn
  by_contra hsettled
  rcases hheld.settled _ hsettled with ⟨other, result, hcalled⟩
  rcases (ownHandles_of_reachable hnode).responded _ _ _ hcalled with ⟨start', hstarted', heq⟩
  have horigin := hheld.unique _ _ _ _ hstarted hstarted' heq
  rw [← horigin] at hcalled
  have hanswer : (start.response, result) ∈ responds origin n.trace :=
    List.mem_filterMap.mpr ⟨_, mem_calls.mpr hcalled, rfl⟩
  rw [hresponds] at hanswer
  simp at hanswer

theorem responds_failureEvents (request : Request) (context : Context) (reply : Reply) (cell : Cell)
    (handle : HandleResponse) (result : Response)
    : responds request.origin (failureEvents request context reply cell (.respond handle result))
        = [(handle, result)] := by
  simp [responds, failureEvents, Call.answer, List.filterMap_cons]

theorem failure_reported_iff (hn : (js F jsonParse).Reachable System.free n) (hnone : n.job = none)
    {index : Nat} {request : Request} (hrequest : n.requests[index]? = some request) {start : Start}
    (hstarted : .started request.origin start ∈ n.trace) {reply : Reply} {text : Str}
    (hfails : Fails F reply text)
    : ∃ n', (js F jsonParse).exec n [.settle index reply, .advance, .advance, .advance] = some n'
        ∧ n'.job = none
        ∧ (FailureReported F jsonParse n' request.origin start text ↔
            ∃ httpCode data, reply = .success httpCode data) := by
  rcases js_refines.reachable hn with ⟨_, hnode, rfl⟩
  rcases request_pending hnode hnone (List.mem_of_getElem? hrequest) hstarted with
    ⟨hresponds, hcontext, hown⟩
  rw [(jsHeld_of_reachable hn).context _ _ hstarted] at hcontext
  rcases hfails.read with ⟨e, hread, hsuccess, herror⟩
  rcases exec_failed hnone hrequest hcontext hown (undropped_of_reachable hnode) hread with
    ⟨n', hexec, hjob, huser, htrace⟩
  have hanswer : responds request.origin n'.trace
      = [(start.response, { error := e, result := [] })] := by
    rw [htrace, responds, calls_append, List.filterMap_append]
    change responds _ _ ++ responds _ _ = _
    rw [hresponds, responds_failureEvents, List.nil_append]
  refine ⟨n', hexec, hjob, ?_, ?_⟩
  . intro hreported
    have hresponded := hreported.responded
    cases hfails with
    | rejected _ herr =>
      rw [hanswer, herror ⟨text, rfl⟩] at hresponded
      simp only [List.cons.injEq, Prod.mk.injEq, Response.mk.injEq, true_and, and_true] at hresponded
      exact absurd hresponded.symm herr
    | refused httpCode data _ he => exact ⟨httpCode, data, rfl⟩
  . intro hreply
    rw [hsuccess hreply] at hanswer huser
    refine ⟨hfails.ne_nil, hanswer, ?_⟩
    intro later hlater
    apply user_of_steps hlater (by simp)
    rw [huser]
    simp [NJSItfHandleResponseImpl, hfails.ne_nil, promise_pending hn hnode hstarted hresponds,
      Promise.settle]

/-! ## Two failures of the token request -/

def askedActions : List JsAction :=
  [.getTransactions [lit "a"] ⟨0⟩, .advance, .advance]

def parseNothing (_ : Str) : Option Unit :=
  none

theorem askedActions_exec : ((js Double.integers parseNothing).exec
    (js Double.integers parseNothing).init askedActions).isSome = true := by
  decide +kernel

def askedNode : NodeState (Promises Unit) :=
  ((js Double.integers parseNothing).exec (js Double.integers parseNothing).init
    askedActions).get askedActions_exec

def askedStart : Start where
  handle := 0
  observer := 0
  addresses := [lit "a"]
  options := ⟨0⟩
  response := 0
  http := { context := some 0, impl := some 0 }
  mainContext := some 0
  backContext := some 1

def askedRequest : Request where
  origin := 1
  callback := askedStart.tokenCallback

theorem askedNode_reachable
    : (js Double.integers parseNothing).Reachable System.free askedNode :=
  System.reachable_exec askedActions_exec (System.along_free _ _)

theorem askedNode_request : askedNode.requests[0]? = some askedRequest := by
  decide +kernel

theorem askedNode_started : .started 1 askedStart ∈ askedNode.trace := by
  decide +kernel

theorem askedNode_job : askedNode.job = none := by
  have : askedNode.job.isNone = true := by
    decide +kernel
  exact Option.isNone_iff_eq_none.mp this

-- `JSON.stringify` leaves an undefined body undefined
theorem fails_refused : Fails Double.integers (.success 200 (lit "undefined"))
    (parse Double.integers (lit "undefined")).2 := by
  apply Fails.refused
  apply parseText_of_refused
  decide +kernel

theorem failure_reported_iff_refused : ∃ n',
    (js Double.integers parseNothing).exec askedNode
        [.settle 0 (.success 200 (lit "undefined")), .advance, .advance, .advance] = some n'
      ∧ n'.job = none
      ∧ (FailureReported Double.integers parseNothing n' askedRequest.origin askedStart
            (parse Double.integers (lit "undefined")).2 ↔
          ∃ httpCode data, Reply.success 200 (lit "undefined") = .success httpCode data) :=
  failure_reported_iff askedNode_reachable askedNode_job askedNode_request askedNode_started
    fails_refused

def timeoutActions : List JsAction :=
  [.settle 0 (.networkError (lit "Error: timeout")), .advance, .advance, .advance]

theorem timeoutActions_exec
    : ((js Double.integers parseNothing).exec askedNode timeoutActions).isSome = true := by
  decide +kernel

def timeoutNode : NodeState (Promises Unit) :=
  ((js Double.integers parseNothing).exec askedNode timeoutActions).get timeoutActions_exec

theorem timeoutNode_pending
    : timeoutNode.user 0 = .pending
      ∧ responds 1 timeoutNode.trace = [(0, { error := [], result := [] })] := by
  decide +kernel

theorem not_always_reported : ¬∀ (F : Double) (V : Type) (jsonParse : Str → Option V)
    (n n' : NodeState (Promises V)), (js F jsonParse).Reachable System.free n → n.job = none →
    ∀ index request start reply text, n.requests[index]? = some request →
    .started request.origin start ∈ n.trace → Fails F reply text →
    (js F jsonParse).exec n [.settle index reply, .advance, .advance, .advance] = some n' →
    FailureReported F jsonParse n' request.origin start text := by
  intro h
  have hfails : Fails Double.integers (.networkError (lit "Error: timeout")) (lit "Error: timeout") :=
    .rejected _ (by decide)
  have hexec : (js Double.integers parseNothing).exec askedNode timeoutActions = some timeoutNode :=
    (Option.some_get timeoutActions_exec).symm
  have hreported := h _ _ _ askedNode timeoutNode askedNode_reachable askedNode_job 0 askedRequest
    askedStart _ _ askedNode_request askedNode_started hfails hexec
  have hrejected := hreported.rejected timeoutNode (.refl _)
  rw [show askedStart.response = 0 from rfl, timeoutNode_pending.1] at hrejected
  simp at hrejected

end LedgerApp
