import LedgerApp.Confluence
import LedgerApp.Lemmas.Settlement

/-!
What becomes of the promise that one call of `getTransactions` returns, however many calls there are
and in whatever order the server answers them: a function of the two answers to that call.
-/

namespace LedgerApp

open Bytes Json11

variable {F : Double} {V : Type} {jsonParse : Str → Option V} {n n' : NodeState (Promises V)}

/-! ## The answers on one response handle -/

def results (handle : HandleResponse) (trace : List Event) : List Response :=
  trace.filterMap fun
    | .called _ (.respond other result) => if other = handle then some result else none
    | _ => none

def settled (jsonParse : Str → Option V) (promise : Promise V) (result : Response) : Promise V :=
  if result.error ≠ [] then
    promise.settle (.rejected result.error)
  else
    match jsonParse result.result with
    | some value => promise.settle (.resolved value)
    | none => promise

@[simp]
theorem results_append (handle : HandleResponse) (t u : List Event)
    : results handle (t ++ u) = results handle t ++ results handle u := by
  simp [results]

theorem respond_eq_update (handle : HandleResponse) (result : Response) (promises : Promises V)
    : ((NJSItfHandleResponseImpl jsonParse).respond handle result promises).1
        = Function.update promises handle (settled jsonParse (promises handle) result) := by
  simp only [NJSItfHandleResponseImpl, settled]
  split
  . rfl
  . generalize jsonParse result.result = value
    cases value with
    | some value => rfl
    | none => exact (Function.update_eq_self _ _).symm

theorem on_settled (call : Call) (promises : Promises V) (origin : Nat) (handle : HandleResponse)
    : ((NJSItfHandleResponseImpl jsonParse).on call promises).1 handle
        = (results handle [.called origin call]).foldl (settled jsonParse) (promises handle) := by
  cases call with
  | respond other result =>
    rw [Handlers.on, respond_eq_update]
    by_cases heq : other = handle
    . rw [heq, Function.update_self]
      simp [results]
    . rw [Function.update_of_ne (Ne.symm heq)]
      simp [results, heq]
  | _ => rfl

def Settles (jsonParse : Str → Option V) (n n' : NodeState (Promises V)) : Prop :=
  ∃ later, n'.trace = n.trace ++ later
    ∧ ∀ handle, n'.user handle = (results handle later).foldl (settled jsonParse) (n.user handle)

theorem settles_enter {action : NodeAction} (h : enter n action = some n')
    : Settles jsonParse n n' := by
  cases action with
  | createApi httpImpl threadDispatcher =>
    rw [enter_createApi h]
    exact ⟨[], (List.append_nil _).symm, fun _ => rfl⟩
  | observerTransactionList api =>
    rcases enter_observerTransactionList h with ⟨lib, _, rfl⟩
    exact ⟨[], (List.append_nil _).symm, fun _ => rfl⟩
  | start handle observer addresses options response =>
    rcases enter_start h with ⟨lib, start, calls, _, rfl⟩
    exact ⟨_, rfl, fun _ => rfl⟩
  | settle index reply =>
    rcases enter_settle h with ⟨request, _, rfl⟩
    exact ⟨_, rfl, fun _ => rfl⟩
  | caught index err =>
    rcases enter_caught h with ⟨request, _, rfl⟩
    exact ⟨_, rfl, fun _ => rfl⟩
  | advance => contradiction

theorem settles_advance (F : Double) (job : Job)
    : Settles jsonParse n (n.advance F (NJSItfHandleResponseImpl jsonParse) job) := by
  rcases calls_cases job.calls with
    hlist | ⟨context, task, calls, hlist⟩ | ⟨call, calls, hlist, hcall⟩
  . rw [NodeState.advance_nil hlist]
    refine ⟨[], ?_, ?_⟩
    . rw [NodeState.finish_toWorld, List.append_nil]
    . rw [NodeState.finish_user]
      exact fun _ => rfl
  . rw [NodeState.advance_execute hlist]
    exact ⟨_, List.append_assoc n.trace _ _, fun _ => rfl⟩
  . rw [NodeState.advance_call hlist hcall]
    exact ⟨_, rfl, on_settled call n.user job.origin⟩

theorem user_eq_results {ok : NodeState (Promises V) → NodeAction → Prop}
    (h : (jsNode F jsonParse).Reachable ok n) (handle : HandleResponse)
    : n.user handle = (results handle n.trace).foldl (settled jsonParse) .pending := by
  apply h.invariant
  . rfl
  . intro t action u _ ht _ hstep
    have hsettles : Settles jsonParse t u := by
      rcases nodeStep_cases hstep with ⟨_, henter⟩ | ⟨job, _, _, rfl⟩
      . exact settles_enter henter
      . exact settles_advance F job
    rcases hsettles with ⟨later, htrace, huser⟩
    rw [huser, htrace, results_append, List.foldl_append, ht]

def Visible.result : Visible → Option Response
  | .respond _ result => some result
  | _ => none

theorem results_eq_visible {origin : Nat} {handle : HandleResponse} {trace : List Event}
    (h : ∀ owner other result, .called owner (.respond other result) ∈ trace →
      (other = handle ↔ owner = origin))
    : results handle trace = (visible origin trace).filterMap Visible.result := by
  induction trace with
  | nil => rfl
  | cons event trace ih =>
    have htrace := ih fun owner other result hmem =>
      h owner other result (List.mem_cons_of_mem _ hmem)
    rw [← List.singleton_append, results_append, htrace]
    unfold visible
    rw [calls_append, List.flatMap_append, List.filterMap_append, List.append_left_inj]
    cases event with
    | called owner call =>
      cases call with
      | respond other result =>
        have hown := h owner other result List.mem_cons_self
        by_cases heq : owner = origin
        . simp [results, calls, Call.visible, Visible.result, hown.mpr heq, heq]
        . simp [results, calls, mt hown.mp heq, heq]
      | _ =>
        by_cases heq : owner = origin
        . simp [results, calls, Call.visible, Visible.result, heq]
        . simp [results, calls, heq]
    | _ => rfl

/-! ## What the answers lead to -/

def failure (e : Str) : Promise V :=
  if e = [] then .pending else .rejected e

def settlement (F : Double) (jsonParse : Str → Option V) (answers : Answers) : Promise V :=
  match answers.token.read F with
  | .error e => failure e
  | .ok _ =>
    match answers.transactions.read F with
    | .error e => failure e
    | .ok json =>
      if json.isObject then
        match jsonParse (listText ((listed json).map cellOf)) with
        | some value => .resolved value
        | none => .pending
      else
        .pending

theorem settled_failed (hempty : jsonParse [] = none) (start : Start) (e : Str)
    : ((start.failed e).filterMap Visible.result).foldl (settled jsonParse) .pending
        = failure e := by
  by_cases heq : e = []
  . simp [Start.failed, Visible.result, settled, failure, heq, hempty]
  . simp [Start.failed, Visible.result, settled, failure, heq, Promise.settle]

theorem settled_succeeded (start : Start) (vCells : List TransactionListVmCell)
    : ((start.succeeded vCells).filterMap Visible.result).foldl (settled jsonParse) .pending
        = match jsonParse (listText vCells) with
          | some value => .resolved value
          | none => .pending := by
  have hresults : (start.succeeded vCells).filterMap Visible.result
      = [{ error := [], result := listText vCells }] := by
    unfold Start.succeeded
    split
    . rfl
    . rfl
  rw [hresults]
  simp [settled, Promise.settle]

theorem settled_outcome (hempty : jsonParse [] = none) {start : Start} (h : start.Furnished)
    (answers : Answers)
    : ((start.outcome F answers).filterMap Visible.result).foldl (settled jsonParse) .pending
        = settlement F jsonParse answers := by
  have hask : ∀ url header replied,
      (start.ask url header replied).filterMap Visible.result
        = replied.filterMap Visible.result := by
    intro url header replied
    simp [Start.ask, h.impl, h.context, Visible.result, List.filterMap_cons]
  rw [Start.outcome, hask, Start.onToken, Reply.read_response, settlement]
  cases answers.token.read F with
  | error e => exact settled_failed hempty start e
  | ok json =>
    dsimp only
    rw [h.back, Option.isSome_some, if_pos rfl, Start.askTransactions, hask,
      Start.onTransactions, Reply.read_response]
    cases answers.transactions.read F with
    | error e => exact settled_failed hempty start e
    | ok json =>
      dsimp only
      split
      . exact settled_succeeded start _
      . rfl

/-! ## A call without anything pending -/

structure Finished (n : NodeState (Promises V)) (origin : Nat) : Prop where
  requests : ∀ request ∈ n.requests, request.origin ≠ origin
  job : ∀ job, n.job = some job → job.origin ≠ origin

theorem Finished.step {action : NodeAction} {origin : Nat} {answers : Answers} (hn : Quiet n)
    (hnow : origin < n.lib.now) (hfinished : Finished n origin)
    (hanswers : AnsweredBy answers origin n.trace)
    (h : nodeStep F (NJSItfHandleResponseImpl jsonParse) n action = some n')
    : Finished n' origin ∧ AnsweredBy answers origin n'.trace := by
  have hother : ∀ {later : List Event}, (∀ owner callback reply,
      .replied owner callback reply ∈ later → owner ≠ origin) →
      AnsweredBy answers origin (n.trace ++ later) := by
    intro later hlater callback reply hmem
    rcases List.mem_append.mp hmem with hmem | hmem
    . exact hanswers callback reply hmem
    . exact absurd rfl (hlater _ _ _ hmem)
  have hcaught := not_caught hn.raised h
  rcases nodeStep_cases h with ⟨hnone, henter⟩ | ⟨job, hjob, _, rfl⟩
  . cases action with
    | createApi httpImpl threadDispatcher =>
      rw [enter_createApi henter]
      exact ⟨⟨hfinished.requests, hfinished.job⟩, hanswers⟩
    | observerTransactionList api =>
      rcases enter_observerTransactionList henter with ⟨lib, _, rfl⟩
      exact ⟨⟨hfinished.requests, hfinished.job⟩, hanswers⟩
    | start handle observer addresses options response =>
      rcases enter_start henter with ⟨lib, start, calls, _, rfl⟩
      refine ⟨⟨hfinished.requests, ?_⟩, hother (by simp)⟩
      intro job hjob
      simp only [Option.some.injEq] at hjob
      rw [← hjob]
      exact Nat.ne_of_gt hnow
    | settle index reply =>
      rcases enter_settle henter with ⟨request, hrequest, rfl⟩
      have hne := hfinished.requests request (List.mem_of_getElem? hrequest)
      refine ⟨⟨?_, ?_⟩, hother ?_⟩
      . exact fun other hmem => hfinished.requests other (List.mem_of_mem_eraseIdx hmem)
      . intro job hjob
        simp only [Option.some.injEq] at hjob
        rw [← hjob]
        exact hne
      . intro owner callback other hmem
        rw [List.mem_singleton, Event.replied.injEq] at hmem
        rw [hmem.1]
        exact hne
    | caught index err => exact absurd rfl (hcaught index err)
    | advance => contradiction
  . have hne := hfinished.job job hjob
    have hrequests : ∀ call, ∀ request ∈ n.requests ++ issued job.origin [call],
        request.origin ≠ origin := by
      intro call request hmem
      rcases List.mem_append.mp hmem with hmem | hmem
      . exact hfinished.requests request hmem
      . rw [origin_of_mem_issued hmem]
        exact hne
    rcases calls_cases job.calls with
      hlist | ⟨context, task, calls, hlist⟩ | ⟨call, calls, hlist, hcall⟩
    . rw [NodeState.advance_nil hlist]
      refine ⟨⟨?_, ?_⟩, ?_⟩
      . rw [NodeState.finish_toWorld]
        exact hfinished.requests
      . simp [NodeState.finish_job]
      . rw [NodeState.finish_toWorld]
        exact hanswers
    . rw [NodeState.advance_execute hlist]
      refine ⟨⟨hrequests _, ?_⟩, ?_⟩
      . intro later hlater
        simp only [Option.some.injEq] at hlater
        rw [← hlater]
        exact hne
      . change AnsweredBy answers origin (n.trace ++ _ ++ _)
        rw [List.append_assoc]
        exact hother (by simp)
    . rw [NodeState.advance_call hlist hcall]
      refine ⟨⟨hrequests _, ?_⟩, hother (by simp)⟩
      intro later hlater
      simp only [Option.some.injEq] at hlater
      rw [← hlater]
      exact hne

theorem visible_queued {origin : Nat} (h : Finished n origin)
    : visible origin n.queued.trace = visible origin n.trace := by
  generalize hjob : n.job = job
  cases job with
  | none => rw [queued_of_none hjob]
  | some job =>
    rw [queued_of_some hjob]
    have hother : calls origin (job.calls.map (.called job.origin)) = [] := by
      simp [calls, h.job job hjob]
    simp [World.queued, State.perform, World.perform, visible, hother]

theorem drained_queued {origin : Nat} {e : EnvState} (h : Finished n origin)
    (he : Scheduled n.queued e) : Drained e origin := by
  generalize hjob : n.job = job
  cases job with
  | none =>
    rw [queued_of_none hjob] at he
    refine ⟨?_, ?_, ?_⟩
    . rw [he.toWorld]
      exact h.requests
    . simp [he.queue]
    . simp [he.active]
  | some job =>
    rw [queued_of_some hjob] at he
    have hne := h.job job hjob
    refine ⟨?_, ?_, ?_⟩
    . rw [he.toWorld]
      intro request hmem
      rcases List.mem_append.mp hmem with hmem | hmem
      . exact h.requests request hmem
      . rw [origin_of_mem_issued hmem]
        exact hne
    . rw [he.queue]
      intro runnable hmem
      rw [origin_of_mem_submitted runnable hmem]
      exact hne
    . simp [he.active]

/-! ## All orders -/

theorem started_unique (hn : (jsNode F jsonParse).Reachable (Conducted jsonParse) n) {origin : Nat}
    {start start' : Start} (hstarted : .started origin start ∈ n.trace)
    (hstarted' : .started origin start' ∈ n.trace) : start = start' := by
  rcases (orderly_of_reachable hn).2 with ⟨e, he, hscheduled⟩
  have htrace : ∀ other, .started origin other ∈ n.trace → .started origin other ∈ e.trace := by
    intro other hother
    rw [hscheduled.toWorld]
    exact mem_queued_trace hother
  exact (rooted_of_reachable he).unique _ _ _ (htrace _ hstarted) (htrace _ hstarted')

theorem responds_own (hn : (jsNode F jsonParse).Reachable (Conducted jsonParse) n) {origin : Nat}
    {start : Start} (hstarted : .started origin start ∈ n.trace)
    : ∀ owner handle result, .called owner (.respond handle result) ∈ n.trace →
        (handle = start.response ↔ owner = origin) := by
  intro owner handle result hcalled
  rcases (ownHandles_of_reachable hn).responded _ _ _ hcalled with ⟨start', hstarted', rfl⟩
  have hapart := apart_of_reachable hn
  have hresponse := (hapart.started origin start hstarted).1.response
  have hresponse' := (hapart.started owner start' hstarted').1.response
  constructor
  . intro heq
    rw [← hresponse, ← hresponse'] at heq
    exact hapart.unique _ _ _ _ hstarted' hstarted heq
  . rintro rfl
    rw [started_unique hn hstarted' hstarted]

theorem visible_finished (hn : (jsNode F jsonParse).Reachable (Conducted jsonParse) n) {origin : Nat}
    {start : Start} {answers : Answers} (hstarted : .started origin start ∈ n.trace)
    (hanswers : AnsweredBy answers origin n.trace) (hfinished : Finished n origin)
    : visible origin n.trace = start.outcome F answers := by
  rcases (orderly_of_reachable hn).2 with ⟨e, he, hscheduled⟩
  have htrace : e.trace = n.queued.trace := by
    rw [hscheduled.toWorld]
  have hanswered : AnsweredBy answers origin n.queued.trace :=
    fun callback reply hmem => hanswers callback reply (mem_of_queued (by simp) hmem)
  rw [← visible_queued hfinished, ← htrace]
  rw [← htrace] at hanswered
  apply visible_eq_outcome he _ hanswered (drained_queued hfinished hscheduled)
  rw [htrace]
  exact mem_queued_trace hstarted

theorem promise_settled (hempty : jsonParse [] = none)
    (hn : (jsNode F jsonParse).Reachable (Conducted jsonParse) n) {origin : Nat} {start : Start}
    {answers : Answers} (hstarted : .started origin start ∈ n.trace)
    (hanswers : AnsweredBy answers origin n.trace) (hfinished : Finished n origin)
    : n.user start.response = settlement F jsonParse answers := by
  have hfurnished := ((apart_of_reachable hn).started origin start hstarted).1
  rw [user_eq_results hn, results_eq_visible (responds_own hn hstarted),
    visible_finished hn hstarted hanswers hfinished, settled_outcome hempty hfurnished]

theorem finished_steps (hn : (jsNode F jsonParse).Reachable (Conducted jsonParse) n) {origin : Nat}
    {start : Start} {answers : Answers} (hstarted : .started origin start ∈ n.trace)
    (hanswers : AnsweredBy answers origin n.trace) (hfinished : Finished n origin)
    (h : (jsNode F jsonParse).Steps (Conducted jsonParse) n n')
    : .started origin start ∈ n'.trace ∧ AnsweredBy answers origin n'.trace
        ∧ Finished n' origin := by
  induction h with
  | refl => exact ⟨hstarted, hanswers, hfinished⟩
  | step hrun _ hstep ih =>
    have hreachable := hn.trans hrun
    rcases ih with ⟨hstarted, hanswers, hfinished⟩
    have hnow := ((apart_of_reachable hreachable).started origin start hstarted).2.2
    have hafter := hfinished.step (orderly_of_reachable hreachable).1 hnow hanswers hstep
    rcases (Grown.step hstep).trace with ⟨later, htrace⟩
    refine ⟨?_, hafter.2, hafter.1⟩
    rw [htrace]
    exact List.mem_append_left _ hstarted

-- the promise is settled so now and in every later state
def StaysSettled (F : Double) (jsonParse : Str → Option V) (n : NodeState (Promises V))
    (response : HandleResponse) (promise : Promise V) : Prop :=
  ∀ later, (js F jsonParse).Steps System.free n later → later.user response = promise

-- `JSON.parse` accepts each list that is handed over, so a promise with a list to show is resolved
structure Decided (F : Double) (jsonParse : Str → Option V) (n : NodeState (Promises V))
    (response : HandleResponse) (answers : Answers) : Prop where
  settled : StaysSettled F jsonParse n response (settlement F jsonParse answers)
  resolved : ∀ token json, answers.token.read F = .ok token →
    answers.transactions.read F = .ok json → json.isObject = true →
    ∃ value, jsonParse (listText ((listed json).map cellOf)) = some value
      ∧ settlement F jsonParse answers = .resolved value

theorem settlement_resolved (hF : F.Lawful) (hparse : Accepts F jsonParse) {answers : Answers}
    {token json : Json F} (htoken : answers.token.read F = .ok token)
    (hread : answers.transactions.read F = .ok json) (hobject : json.isObject = true)
    : ∃ value, jsonParse (listText ((listed json).map cellOf)) = some value
        ∧ settlement F jsonParse answers = .resolved value := by
  rcases Reply.read_eq_ok hread with ⟨code, data, _, htext⟩
  rcases listText_isText hF htext with ⟨v, hv⟩
  rcases Option.ne_none_iff_exists'.mp (hparse _ v hv) with ⟨value, hvalue⟩
  refine ⟨value, hvalue, ?_⟩
  simp only [settlement, htoken, hread, hobject, if_true, hvalue]

theorem promise_outcome (hF : F.Lawful) (hparse : Accepts F jsonParse)
    (hempty : jsonParse [] = none) (hn : (js F jsonParse).Reachable System.free n) {origin : Nat}
    {start : Start} {answers : Answers} (hstarted : .started origin start ∈ n.trace)
    (hanswers : AnsweredBy answers origin n.trace) (hfinished : Finished n origin)
    : Decided F jsonParse n start.response answers where
  settled := by
    intro later hlater
    have hreachable := conducted_of_reachable hF hparse hn
    have hsteps := conducted_steps hF hparse hreachable hlater
    rcases finished_steps hreachable hstarted hanswers hfinished hsteps with
      ⟨hstarted', hanswers', hfinished'⟩
    exact promise_settled hempty (hreachable.trans hsteps) hstarted' hanswers' hfinished'
  resolved := fun _ _ htoken hread hobject => settlement_resolved hF hparse htoken hread hobject

/-! ## Two calls at a time -/

def readJson (str : Str) : Option (Json Double.integers) :=
  (parseText Double.integers str).toOption

theorem readJson_accepts : Accepts Double.integers readJson := by
  intro str v hv
  rw [← parseText_eq_ok] at hv
  simp [readJson, hv, Except.toOption]

theorem readJson_nil : readJson [] = none := by
  have hrefused : parseText Double.integers [] = .error (parse Double.integers []).2 :=
    parseText_of_refused (by decide +kernel)
  simp [readJson, hrefused, Except.toOption]

def overtakenAnswers : Answers where
  token := .success 200 (lit "\x7b\"token\":\"t\"\x7d")
  transactions := .success 200 (lit "\x7b\"txs\":[\x7b\"hash\":\"h\"\x7d]\x7d")

-- the first call fails while the list of the second is on its way
def overtakenActions : List JsAction :=
  [.getTransactions [lit "a"] ⟨0⟩, .advance, .advance, .getTransactions [lit "b"] ⟨0⟩, .advance,
    .advance, .settle 1 overtakenAnswers.token, .advance, .advance, .advance, .advance,
    .settle 0 (.networkError (lit "timeout")), .advance, .advance, .advance,
    .settle 0 overtakenAnswers.transactions, .advance, .advance, .advance, .advance, .advance]

theorem overtakenActions_exec : ((js Double.integers readJson).exec
    (js Double.integers readJson).init overtakenActions).isSome = true := by
  decide +kernel

def overtakenNode : NodeState (Promises (Json Double.integers)) :=
  ((js Double.integers readJson).exec (js Double.integers readJson).init
    overtakenActions).get overtakenActions_exec

def overtakenStart : Start where
  handle := 1
  observer := 1
  addresses := [lit "b"]
  options := ⟨0⟩
  response := 1
  http := { context := some 0, impl := some 0 }
  mainContext := some 0
  backContext := some 1

theorem overtakenNode_reachable
    : (js Double.integers readJson).Reachable System.free overtakenNode :=
  System.reachable_exec overtakenActions_exec (System.along_free _ _)

theorem overtakenNode_started : .started 3 overtakenStart ∈ overtakenNode.trace := by
  decide +kernel

theorem overtakenNode_finished : Finished overtakenNode 3 := by
  have hrequests : overtakenNode.requests.length = 0 := by
    decide +kernel
  have hjob : overtakenNode.job.isNone = true := by
    decide +kernel
  refine ⟨?_, ?_⟩
  . simp [List.length_eq_zero_iff.mp hrequests]
  . simp [Option.isNone_iff_eq_none.mp hjob]

theorem overtakenNode_answered : AnsweredBy overtakenAnswers 3 overtakenNode.trace :=
  answeredBy_of_all (by decide +kernel)

theorem promise_outcome_overtaken
    : Decided Double.integers readJson overtakenNode overtakenStart.response overtakenAnswers :=
  promise_outcome Double.integers_lawful readJson_accepts readJson_nil overtakenNode_reachable
    overtakenNode_started overtakenNode_answered overtakenNode_finished

end LedgerApp
