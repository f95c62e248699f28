import LedgerApp.Causality
import LedgerApp.Lemmas.Platform

/-!
The answers that are given to each `start`, once nothing is pending any more.
-/

namespace LedgerApp

open Bytes Json11

variable {F : Double} {s s' : State}

def NonNull (httpImpl : Option HttpImpl) (threadDispatcher : ThreadDispatcher) : Prop :=
  httpImpl.isSome = true ∧ ∀ now,
    (threadDispatcher.getSerialExecutionContext now mainExecutionContext).isSome = true
      ∧ (threadDispatcher.getSerialExecutionContext now backExecutionContext).isSome = true

-- a transactions reply that is handled is an object, unless it failed, and then the closure of its
-- `tx_task` is there until the handler has answered
def handled (F : Double) (s : State) : Action → Bool
  | .run index =>
    match s.queue[index]? with
    | some { origin := _, cell := _, context := _, task := .reply (.transactions closure) resp } =>
      match resp.read F with
      | .ok json => json.isObject
      | .error _ => s.cells[closure.enclosing]? != some none
    | _ => true
  | _ => true

theorem handled_run {index : Nat} {runnable : Runnable} {closure : TxReply} {resp : HttpResponse}
    (h : handled F s (.run index) = true) (hrunnable : s.queue[index]? = some runnable)
    (htask : runnable.task = .reply (.transactions closure) resp)
    : (match resp.read F with
        | .ok json => json.isObject
        | .error _ => s.cells[closure.enclosing]? != some none) = true := by
  cases runnable with
  | mk origin cell context task =>
    dsimp only at htask
    rw [htask] at hrunnable
    simp only [handled, hrunnable] at h
    exact h

structure Answerable (F : Double) (s : State) (action : Action) : Prop where
  nonNull : Gives NonNull s action
  handled : handled F s action = true

structure Start.Complete (start : Start) : Prop where
  impl : start.http.impl ≠ none
  context : start.http.context ≠ none
  back : start.backContext ≠ none

theorem Start.Built.complete {start : Start} (h : start.Built NonNull) : start.Complete := by
  rcases h with ⟨threadDispatcher, now, hhttp, _, hback⟩
  rcases hhttp.context with ⟨earlier, hcontext⟩
  have hgiven := hhttp.given
  refine ⟨?_, ?_, ?_⟩
  . exact Option.isSome_iff_ne_none.mp hgiven.1
  . rw [hcontext]
    exact Option.isSome_iff_ne_none.mp (hgiven.2 _).1
  . rw [hback]
    exact Option.isSome_iff_ne_none.mp (hgiven.2 _).2

structure Smooth (F : Double) (s : State) : Prop where
  noFault : ∀ origin, .called origin .fault ∉ s.trace
  objects : ∀ runnable closure resp json, .ran runnable ∈ s.trace →
    runnable.task = .reply (.transactions closure) resp → resp.read F = .ok json →
    json.isObject = true

theorem Stage.responded_once {cells : List (Option Task)} {origin : Nat} {start : Start}
    {trace : List Event} (h : Stage F cells origin start [] [] trace) (hcomplete : start.Complete)
    (hfault : .called origin .fault ∉ trace)
    (hobjects : ∀ runnable closure resp json, .ran runnable ∈ trace →
      runnable.task = .reply (.transactions closure) resp → resp.read F = .ok json →
      json.isObject = true)
    : ∃ result, responds origin trace = [(start.response, result)] := by
  unfold responds
  cases h with
  | silent himpl => exact absurd himpl hcomplete.impl
  | tokenLost p h hcontext => exact absurd hcontext hcomplete.context
  | noBack p h hback => exact absurd hback hcomplete.back
  | txDangling p h e he => simp at hfault
  | txIgnored p h hobject =>
    have hran := hobjects (p.replyRunnable origin start) (start.txReply p.txCell)
      p.txAnswer.response p.txJson (by simp) rfl (by rw [Reply.read_response, h.txJson])
    rw [hobject] at hran
    contradiction
  | tokenFailed p h e he
  | txFailed p h e he
  | answered p h hmain
  | updated p h => simp [Call.answer, List.filterMap_cons]

theorem Smooth.performed {origin : Nat} {event : Event} {calls : List Call}
    {requests : List Request} {queue : List Runnable} (hs : Smooth F s)
    (h : Performed s s' origin event calls requests queue)
    (hfault : .fault ∉ calls) (hevent : ∀ other call, event ≠ .called other call)
    (hobjects : ∀ runnable closure resp json, event = .ran runnable →
      runnable.task = .reply (.transactions closure) resp → resp.read F = .ok json →
      json.isObject = true) : Smooth F s' where
  noFault := by
    intro other hmem
    rcases h.mem_trace hmem with hmem | hmem | ⟨call, hcall, hmem⟩
    . exact hs.noFault other hmem
    . exact absurd hmem.symm (hevent other .fault)
    . simp only [Event.called.injEq] at hmem
      rw [hmem.2] at hcall
      exact hfault hcall
  objects := by
    intro runnable closure resp json hran htask hread
    rcases h.mem_trace hran with hmem | hmem | ⟨call, _, hmem⟩
    . exact hs.objects runnable closure resp json hmem htask hread
    . exact hobjects runnable closure resp json hmem.symm htask hread
    . simp at hmem

theorem smooth_of_reachable (h : (machine F).Reachable (Answerable F) s) : Smooth F s := by
  apply h.invariant
  . refine ⟨?_, ?_⟩
    . simp [machine, State.init, World.init]
    . simp [machine, State.init, World.init]
  . intro t action u hreachable ht hok hstep
    change step F t action = some u at hstep
    have htracked := tracked_of_reachable hreachable
    have hbuilt := built_of_reachable hreachable fun _ _ hok => hok.nonNull
    cases action with
    | createApi httpImpl threadDispatcher =>
      rw [step_createApi hstep]
      exact ⟨ht.noFault, ht.objects⟩
    | observerTransactionList api =>
      rcases step_observerTransactionList hstep with ⟨lib, hlib, rfl⟩
      exact ⟨ht.noFault, ht.objects⟩
    | start handle observer addresses options response =>
      rcases step_start hstep with ⟨start, hstart, hp⟩
      apply ht.performed hp
      . intro hfault
        rcases Start.mem_call hfault with ⟨impl, heq⟩
        simp at heq
      . simp
      . simp
    | deliver index reply =>
      rcases step_deliver hstep with ⟨request, hrequest, hlib, hp⟩
      apply ht.performed hp
      . intro hfault
        rcases HttpCallback.mem_on hfault with ⟨context, heq⟩
        simp at heq
      . simp
      . simp
    | run index =>
      rcases step_run hstep with ⟨runnable, hrunnable, hlib, hp⟩
      apply ht.performed hp
      . intro hfault
        rcases htracked.at_of_queue (List.mem_of_getElem? hrunnable) with
          ⟨start, observer, hstarted, hobserver, hstage⟩
        rcases Stage.fault_cases hstage hobserver hfault with
          hback | ⟨closure, resp, e, htask, hread, hcell⟩
        . exact (hbuilt.starts _ start hstarted).complete.back hback
        . have := handled_run hok.handled hrunnable htask
          rw [hread, hcell] at this
          simp at this
      . simp
      . intro other closure resp json hevent htask hread
        simp only [Event.ran.injEq] at hevent
        rw [← hevent] at htask
        have := handled_run hok.handled hrunnable htask
        rw [hread] at this
        exact this
    | drop cell =>
      rcases step_drop hstep with ⟨_, rfl⟩
      exact ⟨ht.noFault, ht.objects⟩

theorem answered_once (hs : (machine F).Reachable (Answerable F) s) (hrequests : s.requests = [])
    (hqueue : s.queue = []) {origin : Nat} {start : Start}
    (hstarted : .started origin start ∈ s.trace)
    : ∃ result, responds origin s.trace = [(start.response, result)] := by
  have hat := (tracked_of_reachable hs).at_of_started hstarted
  have hbuilt := built_of_reachable hs fun _ _ hok => hok.nonNull
  have hsmooth := smooth_of_reachable hs
  unfold State.At State.requestsOf State.queueOf at hat
  rw [hrequests, hqueue, owned_nil, owned_nil] at hat
  rw [← responds_traceOf]
  apply hat.responded_once (hbuilt.starts origin start hstarted).complete
  . intro hfault
    exact hsmooth.noFault origin (State.mem_traceOf.mp hfault).1
  . intro runnable closure resp json hran
    exact hsmooth.objects runnable closure resp json (State.mem_traceOf.mp hran).1

theorem along_nonNull {actions : List Action} {s : State}
    (h : ∀ action ∈ actions, ∀ httpImpl threadDispatcher,
      action = .createApi httpImpl threadDispatcher → NonNull httpImpl threadDispatcher)
    : (machine F).Along (Gives NonNull) s actions := by
  apply System.along_of_forall
  intro action haction t
  cases action with
  | createApi httpImpl threadDispatcher => exact h _ haction _ _ rfl
  | _ => trivial

theorem nonNull_twoContexts : NonNull (some 0) twoContexts := by
  have hne : backExecutionContext ≠ mainExecutionContext := by decide
  simp [NonNull, twoContexts, hne]

theorem answered_once_answered
    : ∃ result, responds 1 answeredState.trace = [(answeredStart.response, result)] := by
  have hnonNull : (machine Double.integers).Along (Gives NonNull) (machine Double.integers).init
      answeredActions := by
    apply along_nonNull
    simp [answeredActions, nonNull_twoContexts]
  have hhandled : (machine Double.integers).Along (fun s a => handled Double.integers s a = true)
      (machine Double.integers).init answeredActions := by
    decide +kernel
  have hreachable : (machine Double.integers).Reachable (Answerable Double.integers)
      answeredState :=
    System.reachable_exec answeredActions_exec (hnonNull.and hhandled fun _ _ h h' => ⟨h, h'⟩)
  exact answered_once hreachable (by decide +kernel) (by decide +kernel) answeredState_started

def arrayActions : List Action :=
  [.createApi (some 0) twoContexts, .observerTransactionList 0, .start 0 5 [lit "a"] ⟨0⟩ 7,
    .deliver 0 (.success 200 (lit "\x7b\x7d")), .run 0, .run 0,
    .deliver 0 (.success 200 (lit "[]")), .run 0]

theorem arrayActions_exec
    : ((machine Double.integers).exec (machine Double.integers).init arrayActions).isSome
        = true := by
  decide +kernel

def arrayState : State :=
  ((machine Double.integers).exec (machine Double.integers).init arrayActions).get arrayActions_exec

theorem not_always_answered : ¬∀ (F : Double) (s : State), (machine F).Reachable (Gives NonNull) s →
    s.requests = [] → s.queue = [] → ∀ origin start, .started origin start ∈ s.trace →
    ∃ result, responds origin s.trace = [(start.response, result)] := by
  intro h
  have hnonNull : (machine Double.integers).Along (Gives NonNull) (machine Double.integers).init
      arrayActions := by
    apply along_nonNull
    simp [arrayActions, nonNull_twoContexts]
  have hreachable : (machine Double.integers).Reachable (Gives NonNull) arrayState :=
    System.reachable_exec arrayActions_exec hnonNull
  have hnone : responds 1 arrayState.trace = [] := by
    decide +kernel
  let start : Start := { answeredStart with addresses := [lit "a"], options := ⟨0⟩ }
  have hstarted : .started 1 start ∈ arrayState.trace := by
    decide +kernel
  rcases h _ _ hreachable (by decide +kernel) (by decide +kernel) 1 start hstarted with
    ⟨result, hresult⟩
  rw [hnone] at hresult
  simp at hresult

end LedgerApp
