import LedgerApp.Channels
import LedgerApp.Failures
import LedgerApp.Json11.Lemmas.Accepts
import LedgerApp.Json11.Nesting
import LedgerApp.Platforms
import LedgerApp.Schedule

/-!
The calls of `getTransactions` in Node are an orderly use of the library: the texts they answer with
are JSON, so no handler raises, and each has a handle of its own.
-/

namespace LedgerApp

open Bytes Json11

variable {F : Double} {V : Type} {jsonParse : Str → Option V}

/-! ## The text of a list -/

theorem depth_nulled (v : Json F) : v.nulled.depth = v.depth := by
  induction v using Json.induction with
  | double value =>
    rw [Json.nulled]
    split
    . rfl
    . rfl
  | array items ih =>
    rw [Json.nulled, Json.depth, Json.depth, Json.nulledItems_eq_map, Nat.add_right_cancel_iff]
    apply eq_of_forall_ge_iff
    intro n
    rw [Json.depthItems_le_iff, Json.depthItems_le_iff, List.forall_mem_map]
    constructor
    . exact fun h v hv => ih v hv ▸ h v hv
    . exact fun h v hv => (ih v hv).symm ▸ h v hv
  | object fields ih =>
    rw [Json.nulled, Json.depth, Json.depth, Json.nulledFields_eq_map, Nat.add_right_cancel_iff]
    apply eq_of_forall_ge_iff
    intro n
    rw [Json.depthFields_le_iff, Json.depthFields_le_iff, List.forall_mem_map]
    constructor
    . exact fun h p hp => ih p hp ▸ h p hp
    . exact fun h p hp => (ih p hp).symm ▸ h p hp
  | _ => rfl

theorem listed_items {body : Str} {json : Json F} (h : parseText F body = .ok json)
    : ∃ items : List (Json F), (listed json).map cellOf = items.map valueCell
        ∧ ∀ v ∈ items, v.Canonical ∧ v.depth < maxDepth := by
  generalize htxs : json.get (lit "txs") = txs
  cases txs with
  | array items => exact ⟨items, map_cellOf_listed htxs, fun v hv => item_bounds h htxs hv⟩
  | _ =>
    refine ⟨[], ?_, by simp⟩
    simp [listed, htxs, Json.arrayItems]

theorem listText_isText (hF : F.Lawful) {body : Str} {json : Json F}
    (h : parseText F body = .ok json)
    : ∃ v, IsText F (listText ((listed json).map cellOf)) v := by
  rcases listed_items h with ⟨items, hcells, hbounds⟩
  have htext : listText (items.map valueCell)
      = 0x5b :: [0x2c].intercalate ((items.map Json.nulled).map Json.dump) ++ [0x5d] := by
    simp [listText, valueCell, lit, Function.comp_def, Json.dump_nulled]
  have hnulled : ∀ v ∈ items.map Json.nulled, v.Canonical ∧ v.Finite ∧ v.depth < maxDepth := by
    rw [List.forall_mem_map]
    intro v hv
    rw [depth_nulled]
    exact ⟨Json.canonical_nulled (hbounds v hv).1, Json.finite_nulled v, (hbounds v hv).2⟩
  rcases parseText_joined hF hnulled with ⟨items', hparse, _⟩
  rw [hcells, htext]
  exact ⟨_, (parseText_eq_ok _ _).mp hparse⟩

/-! ## No handler raises -/

def Accepts (F : Double) (jsonParse : Str → Option V) : Prop :=
  ∀ str v, IsText F str v → jsonParse str ≠ none

def Call.Decent (jsonParse : Str → Option V) : Call → Prop
  | .execute _ (.reply _ resp) => resp.error = false
  | .respond _ result => result.error ≠ [] ∨ jsonParse result.result ≠ none
  | _ => True

def Composed (jsonParse : Str → Option V) (n : NodeState (Promises V)) : Prop :=
  ∀ job, n.job = some job → job.request.isSome = true → ∀ call ∈ job.calls, call.Decent jsonParse

theorem decent_call (hF : F.Lawful) (hparse : Accepts F jsonParse) {context : Context} {task : Task}
    {cell : Cell} {cells : List (Option Task)} {getObserver : HandleRef → Option Observer}
    (h : Call.Decent jsonParse (.execute context task))
    : ∀ call ∈ task.call F cell cells getObserver, call.Decent jsonParse := by
  cases task with
  | reply callback resp =>
    have herror : resp.error = false := h
    have hread : resp.read F = parseText F resp.data := by simp [HttpResponse.read, herror]
    generalize htext : parseText F resp.data = x at hread
    cases callback with
    | token closure =>
      rw [Task.call, TokenReply.call_eq, hread]
      cases x with
      | error e => simp [Call.Decent, parseText_error_ne_nil htext]
      | ok json =>
        dsimp only
        unfold TokenContinuation.call
        split
        . simp [Call.Decent]
        . simp [Call.Decent]
    | transactions closure =>
      rw [Task.call, TxReply.call_eq, hread]
      cases x with
      | error e =>
        dsimp only
        unfold respondBy
        split
        . simp [Call.Decent, parseText_error_ne_nil htext]
        . simp [Call.Decent]
      | ok json =>
        dsimp only
        split
        . intro call hmem
          rw [List.mem_append, StartCallback.call_eq, List.mem_cons] at hmem
          rcases hmem with hmem | rfl | hmem
          . rw [mem_printed hmem]
            trivial
          . rcases listText_isText hF htext with ⟨v, hv⟩
            exact .inr (hparse _ v hv)
          . split at hmem
            . rw [List.mem_singleton.mp hmem]
              trivial
            . simp at hmem
        . simp
  | getTransactions closure =>
    rw [Task.call]
    unfold TxTask.call Http.get
    split
    . split
      . simp [Call.Decent]
      . simp
    . simp [Call.Decent]
  | update closure =>
    rw [Task.call, Update.call]
    split
    . simp [Call.Decent]
    . simp [Call.Decent]

theorem quiet_of_decent {call : Call} {promises : Promises V} (h : call.Decent jsonParse)
    : ((NJSItfHandleResponseImpl jsonParse).on call promises).2 = false := by
  cases call with
  | respond handle result =>
    simp only [Handlers.on, NJSItfHandleResponseImpl]
    split
    . rfl
    . next herror =>
      split
      . rfl
      . next hnone => exact absurd hnone (h.resolve_left herror)
  | _ => rfl

variable {n n' : NodeState (Promises V)}

namespace Composed

theorem quiet (hn : Composed jsonParse n) (action : NodeAction)
    : LedgerApp.quiet (NJSItfHandleResponseImpl jsonParse) n action = true := by
  cases action with
  | advance =>
    unfold LedgerApp.quiet
    dsimp only
    split
    . next hjob =>
      rw [quiet_of_decent (hn _ hjob rfl _ List.mem_cons_self)]
      rfl
    . rfl
  | _ => rfl

theorem enter {action : NodeAction} (hn : Composed jsonParse n)
    (h : LedgerApp.enter n action = some n') : Composed jsonParse n' := by
  intro job hjob hrequest
  cases action with
  | createApi httpImpl threadDispatcher =>
    rw [enter_createApi h] at hjob
    exact hn job hjob hrequest
  | observerTransactionList api =>
    rcases enter_observerTransactionList h with ⟨lib, _, rfl⟩
    exact hn job hjob hrequest
  | start handle observer addresses options response =>
    rcases enter_start h with ⟨lib, start, calls, _, rfl⟩
    simp only [Option.some.injEq] at hjob
    rw [← hjob] at hrequest
    contradiction
  | settle index reply =>
    rcases enter_settle h with ⟨request, _, rfl⟩
    simp only [Option.some.injEq] at hjob
    rw [← hjob] at hrequest ⊢
    intro call hmem
    rcases HttpCallback.mem_on hmem with ⟨context, rfl⟩
    cases reply with
    | networkError err => contradiction
    | success httpCode data => rfl
  | caught index err =>
    rcases enter_caught h with ⟨request, _, rfl⟩
    simp only [Option.some.injEq] at hjob
    rw [← hjob] at hrequest
    contradiction
  | advance => contradiction

theorem advance (hF : F.Lawful) (hparse : Accepts F jsonParse) {job : Job}
    (hn : Composed jsonParse n) (hjob : n.job = some job)
    : Composed jsonParse (n.advance F (NJSItfHandleResponseImpl jsonParse) job) := by
  have hcalls := hn job hjob
  intro later hlater hrequest
  rcases calls_cases job.calls with
    hlist | ⟨context, task, calls, hlist⟩ | ⟨call, calls, hlist, hcall⟩
  . rw [NodeState.advance_nil hlist, NodeState.finish_job] at hlater
    contradiction
  . rw [NodeState.advance_execute hlist] at hlater
    simp only [Option.some.injEq] at hlater
    rw [← hlater] at hrequest ⊢
    rw [hlist] at hcalls
    intro call hmem
    rcases List.mem_append.mp hmem with hmem | hmem
    . exact decent_call hF hparse (hcalls hrequest _ List.mem_cons_self) call hmem
    . exact hcalls hrequest call (List.mem_cons_of_mem _ hmem)
  . rw [NodeState.advance_call hlist hcall] at hlater
    simp only [Option.some.injEq] at hlater
    rw [← hlater] at hrequest ⊢
    rw [hlist] at hcalls
    exact fun call hmem => hcalls hrequest call (List.mem_cons_of_mem _ hmem)

theorem step (hF : F.Lawful) (hparse : Accepts F jsonParse) {action : NodeAction}
    (hn : Composed jsonParse n)
    (h : nodeStep F (NJSItfHandleResponseImpl jsonParse) n action = some n')
    : Composed jsonParse n' := by
  rcases nodeStep_cases h with ⟨_, henter⟩ | ⟨job, hjob, _, rfl⟩
  . exact hn.enter henter
  . exact hn.advance hF hparse hjob

end Composed

theorem composed_of_reachable (hF : F.Lawful) (hparse : Accepts F jsonParse)
    {ok : NodeState (Promises V) → NodeAction → Prop} (h : (jsNode F jsonParse).Reachable ok n)
    : Composed jsonParse n := by
  apply h.invariant
  . intro job hjob
    simp [node, NodeState.init] at hjob
  . intro t action u _ ht _ hstep
    exact ht.step hF hparse hstep

/-! ## Each call has a handle of its own -/

def apart (n : NodeState (Promises V)) : NodeAction → Prop
  | .createApi httpImpl threadDispatcher =>
    httpImpl = some 0 ∧ threadDispatcher = NJSThreadDispatcherImpl
  | .start handle _ _ _ response =>
    handle = response ∧ ∀ origin start, .started origin start ∈ n.trace → start.handle ≠ handle
  | _ => True

structure Start.Furnished (start : Start) : Prop where
  response : start.handle = start.response
  impl : start.http.impl = some 0
  context : start.http.context = some 0
  back : start.backContext = some 1

structure Furnished (http : Http) (threadDispatcher : ThreadDispatcher) : Prop where
  impl : http.impl = some 0
  context : http.context = some 0
  dispatcher : threadDispatcher = NJSThreadDispatcherImpl

structure Apart (n : NodeState (Promises V)) : Prop where
  apis : ∀ api ∈ n.lib.apis, Furnished api.http api.threadDispatcher
  handles : ∀ handle ∈ n.lib.handles, Furnished handle.http handle.threadDispatcher
  started : ∀ origin start, .started origin start ∈ n.trace →
    start.Furnished ∧ start.handle < n.lib.handles.length ∧ origin < n.lib.now
  unique : ∀ origin start origin' start', .started origin start ∈ n.trace →
    .started origin' start' ∈ n.trace → start.handle = start'.handle → origin = origin'

theorem furnished_createApi {threadDispatcher : ThreadDispatcher} (now : Nat)
    (h : threadDispatcher = NJSThreadDispatcherImpl)
    : Furnished
        { context := threadDispatcher.getSerialExecutionContext now mainExecutionContext,
          impl := some 0 }
        threadDispatcher := by
  refine ⟨rfl, ?_, h⟩
  rw [h]
  simp [NJSThreadDispatcherImpl]

theorem furnished_start {lib lib' : Lib} {handle : HandleRef} {observer : Observer}
    {addresses : List Str} {options : ApiOptions} {start : Start} {calls : List Call}
    (hlib : ∀ found ∈ lib.handles, Furnished found.http found.threadDispatcher)
    (h : lib.start handle observer addresses options handle = some (lib', start, calls))
    : start.Furnished ∧ start.handle = handle ∧ handle < lib.handles.length
        ∧ lib'.apis = lib.apis ∧ lib'.handles.length = lib.handles.length
        ∧ lib'.now = lib.now + 1
        ∧ ∀ found ∈ lib'.handles, Furnished found.http found.threadDispatcher := by
  unfold Lib.start at h
  split at h
  . next found hfound =>
    simp only [Option.some.injEq, Prod.mk.injEq] at h
    rcases h with ⟨rfl, rfl, _⟩
    have hown := hlib found (List.mem_of_getElem? hfound)
    refine ⟨⟨rfl, hown.impl, hown.context, ?_⟩, rfl, (List.getElem?_eq_some_iff.mp hfound).1, rfl,
      List.length_set, rfl, ?_⟩
    . dsimp only
      rw [hown.dispatcher]
      simp [NJSThreadDispatcherImpl, show backExecutionContext ≠ mainExecutionContext by decide]
    . intro other hother
      rcases List.mem_or_eq_of_mem_set hother with hother | rfl
      . exact hlib other hother
      . exact hown
  . contradiction

namespace Apart

theorem init : Apart (NodeState.init fun _ => .pending : NodeState (Promises V)) where
  apis := by simp [NodeState.init, World.init, Lib.init]
  handles := by simp [NodeState.init, World.init, Lib.init]
  started := by simp [NodeState.init, World.init]
  unique := by simp [NodeState.init, World.init]

theorem same (hn : Apart n) (hlib : n'.lib = n.lib)
    (htrace : ∀ origin start, .started origin start ∈ n'.trace → .started origin start ∈ n.trace)
    : Apart n' where
  apis := by
    rw [hlib]
    exact hn.apis
  handles := by
    rw [hlib]
    exact hn.handles
  started := by
    rw [hlib]
    exact fun origin start hstarted => hn.started origin start (htrace origin start hstarted)
  unique := fun _ _ _ _ hstarted hstarted' =>
    hn.unique _ _ _ _ (htrace _ _ hstarted) (htrace _ _ hstarted')

theorem enter {action : NodeAction} (hn : Apart n) (hok : apart n action)
    (h : LedgerApp.enter n action = some n') : Apart n' := by
  cases action with
  | createApi httpImpl threadDispatcher =>
    rw [enter_createApi h]
    rcases hok with ⟨rfl, rfl⟩
    refine ⟨?_, hn.handles, ?_, hn.unique⟩
    . intro api hapi
      rcases List.mem_append.mp hapi with hapi | hapi
      . exact hn.apis api hapi
      . rw [List.mem_singleton.mp hapi]
        exact furnished_createApi n.lib.now rfl
    . intro origin start hstarted
      rcases hn.started origin start hstarted with ⟨hfurnished, hbelow, hnow⟩
      exact ⟨hfurnished, hbelow, Nat.lt_succ_of_lt hnow⟩
  | observerTransactionList api =>
    rcases enter_observerTransactionList h with ⟨lib, hlib, rfl⟩
    unfold Lib.observerTransactionList at hlib
    split at hlib
    . next found hfound =>
      simp only [Option.some.injEq] at hlib
      rw [← hlib]
      refine ⟨hn.apis, ?_, ?_, hn.unique⟩
      . intro handle hhandle
        rcases List.mem_append.mp hhandle with hhandle | hhandle
        . exact hn.handles handle hhandle
        . rw [List.mem_singleton.mp hhandle]
          exact hn.apis found (List.mem_of_getElem? hfound)
      . intro origin start hstarted
        rcases hn.started origin start hstarted with ⟨hfurnished, hbelow, hnow⟩
        refine ⟨hfurnished, ?_, hnow⟩
        rw [List.length_append]
        exact Nat.lt_add_right _ hbelow
    . contradiction
  | start handle observer addresses options response =>
    rcases enter_start h with ⟨lib, start, calls, hstart, rfl⟩
    rcases hok with ⟨rfl, hfresh⟩
    rcases furnished_start hn.handles hstart with
      ⟨hfurnished, hhandle, hbelow, hapis, hlength, hnow, hhandles⟩
    have hcases : ∀ origin other, .started origin other ∈ n.trace ++ [.started n.lib.now start] →
        .started origin other ∈ n.trace ∨ origin = n.lib.now ∧ other = start := by
      intro origin other hmem
      simpa using hmem
    refine ⟨?_, hhandles, ?_, ?_⟩
    . dsimp only [World.log]
      rw [hapis]
      exact hn.apis
    . intro origin other hother
      dsimp only [World.log]
      rw [hlength, hnow]
      rcases hcases origin other hother with hother | ⟨rfl, rfl⟩
      . rcases hn.started origin other hother with ⟨hother, hlt, hlater⟩
        exact ⟨hother, hlt, Nat.lt_succ_of_lt hlater⟩
      . rw [hhandle]
        exact ⟨hfurnished, hbelow, Nat.lt_succ_self _⟩
    . intro origin other origin' other' hother hother' heq
      rcases hcases origin other hother with hbefore | ⟨rfl, rfl⟩
      . rcases hcases origin' other' hother' with hbefore' | ⟨rfl, rfl⟩
        . exact hn.unique origin other origin' other' hbefore hbefore' heq
        . exact absurd (heq.trans hhandle) (hfresh origin other hbefore)
      . rcases hcases origin' other' hother' with hbefore' | ⟨rfl, _⟩
        . exact absurd (heq.symm.trans hhandle) (hfresh origin' other' hbefore')
        . rfl
  | settle index reply =>
    rcases enter_settle h with ⟨request, _, rfl⟩
    refine hn.same rfl ?_
    simp [World.log]
  | caught index err =>
    rcases enter_caught h with ⟨request, _, rfl⟩
    refine hn.same rfl ?_
    simp [World.log]
  | advance => contradiction

theorem step {action : NodeAction} (hn : Apart n) (hok : apart n action)
    (h : nodeStep F (NJSItfHandleResponseImpl jsonParse) n action = some n') : Apart n' := by
  rcases nodeStep_cases h with ⟨_, henter⟩ | ⟨job, _, _, rfl⟩
  . exact hn.enter hok henter
  . have hadvance : ∃ later,
        Worked jsonParse n (n.advance F (NJSItfHandleResponseImpl jsonParse) job) later :=
      worked_advance F
    rcases hadvance with ⟨later, hworked⟩
    refine hn.same hworked.lib ?_
    intro origin start hmem
    rw [hworked.trace, List.mem_append] at hmem
    exact hmem.resolve_right (hworked.started origin start)

end Apart

/-! ## The steps of the interface in Node -/

structure Conducted (jsonParse : Str → Option V) (n : NodeState (Promises V)) (action : NodeAction)
    : Prop where
  quiet : quiet (NJSItfHandleResponseImpl jsonParse) n action = true
  apart : apart n action

theorem apart_of_reachable (h : (jsNode F jsonParse).Reachable (Conducted jsonParse) n)
    : Apart n := by
  apply h.invariant
  . exact Apart.init
  . intro t action u _ ht hok hstep
    exact ht.step hok.apart hstep

theorem enter_of_idle {action : NodeAction} (hnone : action ≠ .advance)
    (h : (jsNode F jsonParse).step n action = some n') : enter n action = some n' := by
  rcases nodeStep_cases h with ⟨_, henter⟩ | ⟨_, _, hadvance, _⟩
  . exact henter
  . exact absurd hadvance hnone

theorem along_conducted (hcomposed : Composed jsonParse n) (hapart : Apart n) (action : JsAction)
    : (jsNode F jsonParse).Along (Conducted jsonParse) n (jsActions n action) := by
  cases action with
  | getTransactions addresses currency =>
    refine ⟨⟨rfl, rfl, rfl⟩, ?_⟩
    intro t ht
    have hcreated := enter_createApi (enter_of_idle (by simp) ht)
    refine ⟨⟨rfl, trivial⟩, ?_⟩
    intro u hu
    rcases enter_observerTransactionList (enter_of_idle (by simp) hu) with ⟨lib, _, hobserved⟩
    refine ⟨⟨rfl, rfl, ?_⟩, fun _ _ => trivial⟩
    intro origin start hstarted
    rw [hobserved, hcreated] at hstarted
    exact Nat.ne_of_lt (hapart.started origin start hstarted).2.1
  | settle index reply
  | caught index err
  | advance => exact ⟨⟨hcomposed.quiet _, trivial⟩, fun _ _ => trivial⟩

theorem conducted_steps (hF : F.Lawful) (hparse : Accepts F jsonParse)
    (hn : (jsNode F jsonParse).Reachable (Conducted jsonParse) n)
    (h : (js F jsonParse).Steps System.free n n')
    : (jsNode F jsonParse).Steps (Conducted jsonParse) n n' := by
  apply h.invariant
  . exact .refl n
  . intro t action u ht _ hstep
    have hreachable := hn.trans ht
    have halong := along_conducted (F := F) (composed_of_reachable hF hparse hreachable)
      (apart_of_reachable hreachable) action
    exact ht.trans (System.steps_of_exec hstep halong)

theorem conducted_of_reachable (hF : F.Lawful) (hparse : Accepts F jsonParse)
    (h : (js F jsonParse).Reachable System.free n)
    : (jsNode F jsonParse).Reachable (Conducted jsonParse) n :=
  conducted_steps hF hparse (.refl _) h

/-! ## An orderly environment -/

variable {s t : State} {e : EnvState}

-- in Node nothing is dropped, so no closure is missing when it is looked up
theorem orderly_scheduled {action : Action} (he : Scheduled s e) (hrooted : Rooted e)
    (hcells : none ∉ s.cells) (hcells' : none ∉ t.cells)
    (hunique : ∀ origin start origin' start', .started origin start ∈ t.trace →
      .started origin' start' ∈ t.trace → start.handle = start'.handle → origin = origin')
    (h : step F s action = some t) : Orderly F e action.scheduled := by
  cases action with
  | createApi httpImpl threadDispatcher => exact ⟨rfl, rfl⟩
  | observerTransactionList api => exact ⟨rfl, rfl⟩
  | start handle observer addresses options response =>
    refine ⟨?_, rfl⟩
    rcases step_start h with ⟨started, hstart, hperformed⟩
    have hself : .started s.lib.now started ∈ t.trace := by
      rw [hperformed.trace]
      simp
    simp only [Action.scheduled, family, List.all_eq_true]
    intro event hevent
    cases event with
    | started origin earlier =>
      have hbefore : .started origin earlier ∈ t.trace := by
        rw [hperformed.trace, ← he.toWorld]
        exact List.mem_append_left _ hevent
      have hnow := hrooted.fresh origin earlier hevent
      rw [he.toWorld] at hnow
      rw [bne_iff_ne]
      intro heq
      rw [← (started_of_start hstart).handle_eq] at heq
      exact Nat.ne_of_lt hnow (hunique _ _ _ _ hbefore hself heq)
    | _ => rfl
  | deliver index reply =>
    refine ⟨rfl, ?_⟩
    simp only [Action.scheduled, sustains, he.toWorld]
    split
    . split
      . rw [bne_iff_ne]
        exact fun hdropped => hcells (List.mem_of_getElem? hdropped)
      . rfl
    . rfl
  | run index => exact ⟨rfl, rfl⟩
  | drop cell =>
    simp only [step] at h
    split at h
    . next hcell =>
      simp only [Option.some.injEq] at h
      rw [← h] at hcells'
      exact absurd (List.mem_set hcell.1 none) hcells'
    . contradiction

-- the calls of a job that are yet to come are all that is ahead
theorem mem_of_queued {event : Event} (hevent : ∀ owner call, event ≠ .called owner call)
    (h : event ∈ n.queued.trace) : event ∈ n.trace := by
  generalize hjob : n.job = job at h
  cases job with
  | none =>
    rw [queued_of_none hjob] at h
    exact h
  | some job =>
    rw [queued_of_some hjob] at h
    rcases List.mem_append.mp h with h | h
    . exact h
    . rcases List.mem_map.mp h with ⟨call, _, rfl⟩
      exact absurd rfl (hevent job.origin call)

theorem queued_undropped (h : none ∉ n.cells) : none ∉ n.queued.cells := by
  generalize hjob : n.job = job
  cases job with
  | none =>
    rw [queued_of_none hjob]
    exact h
  | some job =>
    rw [queued_of_some hjob]
    intro hmem
    rcases List.mem_append.mp hmem with hmem | hmem
    . exact h hmem
    . exact tasks_ne_none hmem

theorem orderly_of_reachable (hn : (jsNode F jsonParse).Reachable (Conducted jsonParse) n)
    : Quiet n ∧ ∃ e, (environment F).Reachable (Orderly F) e ∧ Scheduled n.queued e := by
  apply hn.invariant
  . exact ⟨Quiet.init _, _, .refl _, rfl, rfl, rfl⟩
  . intro t action u ht hquiet hok hstep
    have hu := System.Steps.step ht hok hstep
    rcases hquiet with ⟨hquiet, e, he, hscheduled⟩
    refine ⟨hquiet.step hok.quiet hstep, ?_⟩
    rcases queued_step hquiet.sequential hstep (not_caught hquiet.raised hstep) with
      heq | ⟨queued, hqueued⟩
    . rw [heq]
      exact ⟨e, he, hscheduled⟩
    . have horderly := orderly_scheduled hscheduled (rooted_of_reachable he)
        (queued_undropped (undropped_of_reachable ht))
        (queued_undropped (undropped_of_reachable hu))
        (fun _ _ _ _ hstarted hstarted' =>
          (apart_of_reachable hu).unique _ _ _ _ (mem_of_queued (by simp) hstarted)
            (mem_of_queued (by simp) hstarted'))
        hqueued
      rcases hscheduled.step (fun _ _ => ⟨rfl, rfl⟩) horderly hqueued with ⟨e', hsteps, hscheduled'⟩
      exact ⟨e', he.trans hsteps, hscheduled'⟩

end LedgerApp
