import LedgerApp.Captures

/-!
The order of the answers and of the updates when the main context is a queue: each answer submits
its update to the end of that queue, so the updates are shown in the order of the answers.
-/

namespace LedgerApp

open Bytes Json11

variable {F : Double} {s s' : State} {main : Context}

-- a failure is reported with an empty `result`
def Call.listAnswered : Call → Option Str
  | .respond _ result => if result.error = [] ∧ result.result ≠ [] then some result.result else none
  | _ => none

def Call.listShown : Call → Option Str
  | .onUpdate _ newData => some (listText newData.transactions)
  | _ => none

def Task.listPending : Task → Option Str
  | .update closure => some (listText closure.vCells)
  | _ => none

def lists (select : Call → Option Str) (trace : List Event) : List (Nat × Str) :=
  trace.filterMap fun
    | .called origin call => (select call).map fun text => (origin, text)
    | _ => none

def answeredLists (trace : List Event) : List (Nat × Str) :=
  lists Call.listAnswered trace

def shownLists (trace : List Event) : List (Nat × Str) :=
  lists Call.listShown trace

def pendingLists (queue : List Runnable) : List (Nat × Str) :=
  queue.filterMap fun runnable => runnable.task.listPending.map fun text => (runnable.origin, text)

-- the context runs what it holds in the order of submission
def fifo (main : Context) (s : State) : Action → Bool
  | .run index =>
    match s.queue[index]? with
    | some runnable =>
      runnable.context != main || (s.queue.take index).all fun earlier => earlier.context != main
    | none => true
  | _ => true

structure OneMain (main : Context) (s : State) (action : Action) : Prop where
  given : Gives (fun _ threadDispatcher => ∀ now,
    threadDispatcher.getSerialExecutionContext now mainExecutionContext = some main) s action
  fifo : fifo main s action = true

/-! ## The lists of one body -/

theorem listAnswered_list (handle : HandleResponse) (cells : List TransactionListVmCell)
    : Call.listAnswered (.respond handle { error := [], result := listText cells })
        = some (listText cells) := by
  simp [Call.listAnswered, listText_ne_nil]

theorem listAnswered_failure (handle : HandleResponse) (error : Str)
    : Call.listAnswered (.respond handle { error := error, result := [] }) = none := by
  simp [Call.listAnswered]

theorem lists_printed (select : Call → Option Str) (hprint : ∀ text, select (.print text) = none)
    (json : Json F) (calls : List Call)
    : (printed json ++ calls).filterMap select = calls.filterMap select := by
  unfold printed
  split
  . simp [hprint]
  . rfl

theorem pendingLists_append (queue queue' : List Runnable)
    : pendingLists (queue ++ queue') = pendingLists queue ++ pendingLists queue' := by
  simp [pendingLists]

-- a list is answered exactly where its update is submitted
theorem Task.answered_eq_submitted (task : Task) (cell next : Cell) (cells : List (Option Task))
    (getObserver : HandleRef → Option Observer) (origin : Nat)
    (hmain : ∀ closure resp, task = .reply (.transactions closure) resp →
      closure.callback.mainContext = some main)
    : ((task.call F cell cells getObserver).filterMap Call.listAnswered).map
          (fun text => (origin, text))
        = pendingLists (submitted origin next (task.call F cell cells getObserver)) := by
  unfold Task.call
  split
  . rw [TokenReply.call_eq]
    split
    . simp [listAnswered_failure, submitted, pendingLists]
    . unfold TokenContinuation.call
      split
      . simp [Call.listAnswered, submitted, pendingLists, Task.listPending]
      . simp [Call.listAnswered, submitted, pendingLists]
  . next closure resp =>
    rw [TxReply.call_eq]
    split
    . unfold respondBy
      split
      . simp [listAnswered_failure, submitted, pendingLists]
      . simp [Call.listAnswered, submitted, pendingLists]
    . split
      . rw [StartCallback.call_eq, hmain closure resp rfl, submitted_printed,
          lists_printed _ (fun _ => rfl), List.filterMap_cons_some (listAnswered_list _ _)]
        simp [Call.listAnswered, submitted, pendingLists, Task.listPending, StartCallback.update]
      . rfl
  . unfold TxTask.call Http.get
    split
    . split
      . simp [Call.listAnswered, submitted, pendingLists]
      . rfl
    . simp [Call.listAnswered, submitted, pendingLists]
  . unfold Update.call
    split
    . simp [Call.listAnswered, submitted, pendingLists]
    . simp [Call.listAnswered, submitted, pendingLists]

theorem Task.shown_eq_pending (task : Task) (cell : Cell) (cells : List (Option Task))
    (getObserver : HandleRef → Option Observer)
    (hobserver : ∀ closure, task = .update closure → closure.observer ≠ none)
    : (task.call F cell cells getObserver).filterMap Call.listShown = task.listPending.toList := by
  unfold Task.call
  split
  . rw [TokenReply.call_eq]
    split
    . rfl
    . unfold TokenContinuation.call
      split
      . rfl
      . rfl
  . rw [TxReply.call_eq]
    split
    . unfold respondBy
      split
      . rfl
      . rfl
    . split
      . rw [StartCallback.call_eq, lists_printed _ (fun _ => rfl)]
        split
        . rfl
        . rfl
      . rfl
  . unfold TxTask.call Http.get
    split
    . split
      . rfl
      . rfl
    . rfl
  . next closure =>
    unfold Update.call
    split
    . rfl
    . next hnone => exact absurd hnone (hobserver closure rfl)

theorem lists_performed (select : Call → Option Str) (t : List Event) (event : Event)
    (origin : Nat) (calls : List Call) (hevent : ∀ other call, event ≠ .called other call)
    : lists select (t ++ event :: calls.map (.called origin))
        = lists select t ++ (calls.filterMap select).map fun text => (origin, text) := by
  unfold lists
  rw [List.filterMap_append, List.filterMap_cons, List.filterMap_map, List.map_filterMap]
  cases event with
  | called other call => exact absurd rfl (hevent other call)
  | _ => rfl

/-! ## The lists along a run -/

structure Ordered (main : Context) (s : State) : Prop where
  lists : answeredLists s.trace = shownLists s.trace ++ pendingLists s.queue
  contexts : ∀ runnable ∈ s.queue, runnable.task.listPending ≠ none → runnable.context = main

theorem pendingLists_eraseIdx {index : Nat} {runnable : Runnable} (h : Ordered main s)
    (hfifo : fifo main s (.run index) = true) (hrunnable : s.queue[index]? = some runnable)
    : pendingLists s.queue
        = runnable.task.listPending.toList.map (fun text => (runnable.origin, text))
          ++ pendingLists (s.queue.eraseIdx index) := by
  rcases eraseIdx_split hrunnable with ⟨pre, post, hqueue, hlength, herase⟩
  have hmem : runnable ∈ s.queue := List.mem_of_getElem? hrunnable
  have hsplit : pendingLists (runnable :: post)
      = runnable.task.listPending.toList.map (fun text => (runnable.origin, text))
        ++ pendingLists post := by
    generalize hpending : runnable.task.listPending = pending
    cases pending with
    | none => simp [pendingLists, hpending]
    | some text => simp [pendingLists, hpending]
  rw [herase, hqueue, pendingLists_append, pendingLists_append, hsplit]
  by_cases hpending : runnable.task.listPending = none
  . simp [hpending]
  . have hcontext := h.contexts runnable hmem hpending
    have hpre : pendingLists pre = [] := by
      unfold pendingLists
      rw [List.filterMap_eq_nil_iff]
      intro earlier hearlier
      have htake : s.queue.take index = pre := by
        rw [hqueue, ← hlength, List.take_left]
      simp only [fifo, hrunnable, hcontext, htake, bne_self_eq_false, Bool.false_or,
        List.all_eq_true, bne_iff_ne] at hfifo
      have hother := hfifo earlier hearlier
      have hnone : earlier.task.listPending = none := by
        by_contra hsome
        have hin : earlier ∈ s.queue := by
          rw [hqueue]
          exact List.mem_append_left _ hearlier
        exact hother (h.contexts earlier hin hsome)
      rw [hnone, Option.map_none]
    rw [hpre, List.nil_append, List.nil_append]

theorem Ordered.quiet {origin : Nat} {event : Event} {calls : List Call}
    {requests : List Request} (hs : Ordered main s)
    (hp : Performed s s' origin event calls requests s.queue)
    (hevent : ∀ other call, event ≠ .called other call)
    (hanswered : calls.filterMap Call.listAnswered = [])
    (hshown : calls.filterMap Call.listShown = [])
    (hsubmitted : ∀ context closure, .execute context (.update closure) ∉ calls)
    : Ordered main s' := by
  have hnone : ∀ runnable ∈ submitted origin s.cells.length calls,
      runnable.task.listPending = none := by
    intro runnable hmem
    have hexecute := execute_of_mem_submitted hmem
    cases htask : runnable.task with
    | update closure =>
      rw [htask] at hexecute
      exact absurd hexecute (hsubmitted _ _)
    | _ => rfl
  have hpending : pendingLists (submitted origin s.cells.length calls) = [] := by
    unfold pendingLists
    rw [List.filterMap_eq_nil_iff]
    intro runnable hmem
    rw [hnone runnable hmem, Option.map_none]
  refine ⟨?_, ?_⟩
  . unfold answeredLists shownLists
    rw [hp.trace, hp.queue, lists_performed _ _ _ _ _ hevent, lists_performed _ _ _ _ _ hevent,
      hanswered, hshown, pendingLists_append, hpending, List.map_nil, List.append_nil,
      List.append_nil, List.append_nil]
    exact hs.lists
  . intro runnable hmem hsome
    rw [hp.queue, List.mem_append] at hmem
    rcases hmem with hmem | hmem
    . exact hs.contexts runnable hmem hsome
    . exact absurd (hnone runnable hmem) hsome

theorem Ordered.run {index : Nat} {runnable : Runnable} {start : Start}
    (hs : Ordered main s) (hfifo : fifo main s (.run index) = true)
    (hrunnable : s.queue[index]? = some runnable)
    (hp : Performed s s' runnable.origin (.ran runnable) (s.body F runnable) s.requests
      (s.queue.eraseIdx index))
    (hstage : Stage F s.cells runnable.origin start (s.requestsOf runnable.origin) [runnable]
      (s.traceOf runnable.origin))
    (hmain : start.mainContext = some main) : Ordered main s' := by
  have hcallback : ∀ closure resp, runnable.task = .reply (.transactions closure) resp →
      closure.callback.mainContext = some main := by
    intro closure resp htask
    rw [hstage.callback_eq htask]
    exact hmain
  have hanswered := Task.answered_eq_submitted (F := F) runnable.task runnable.cell s.cells.length
    s.cells s.lib.getObserver runnable.origin hcallback
  have hshown := Task.shown_eq_pending (F := F) runnable.task runnable.cell s.cells
    s.lib.getObserver (fun _ htask => hstage.observer_ne_none htask)
  refine ⟨?_, ?_⟩
  . unfold answeredLists shownLists
    rw [hp.trace, hp.queue, lists_performed _ _ _ _ _ (by simp),
      lists_performed _ _ _ _ _ (by simp), pendingLists_append, World.body, hanswered, hshown]
    have hlists := hs.lists
    rw [pendingLists_eraseIdx hs hfifo hrunnable] at hlists
    unfold answeredLists shownLists at hlists
    rw [hlists]
    simp
  . intro other hmem hsome
    rcases hp.mem_queue hmem with hmem | ⟨_, hexecute⟩
    . exact hs.contexts other (List.mem_of_mem_eraseIdx hmem) hsome
    . cases htask : other.task with
      | update closure =>
        rw [htask] at hexecute
        rcases Task.makes_of_mem hexecute with ⟨reply, resp, json, heq, _, _, hcontext, _⟩
        rw [hcallback reply resp heq, Option.some.injEq] at hcontext
        exact hcontext.symm
      | _ =>
        rw [htask] at hsome
        exact absurd rfl hsome

theorem ordered_of_reachable (h : (machine F).Reachable (OneMain main) s) : Ordered main s := by
  apply h.invariant
  . refine ⟨rfl, ?_⟩
    simp [machine, State.init]
  . intro t action u hreachable ht hok hstep
    change step F t action = some u at hstep
    cases action with
    | createApi httpImpl threadDispatcher =>
      rw [step_createApi hstep]
      exact ⟨ht.lists, ht.contexts⟩
    | observerTransactionList api =>
      rcases step_observerTransactionList hstep with ⟨lib, hlib, rfl⟩
      exact ⟨ht.lists, ht.contexts⟩
    | start handle observer addresses options response =>
      rcases step_start hstep with ⟨start, hstart, hp⟩
      rw [Start.call_eq] at hp
      split at hp
      . exact ht.quiet hp (by simp) rfl rfl (by simp)
      . exact ht.quiet hp (by simp) rfl rfl (by simp)
    | deliver index reply =>
      rcases step_deliver hstep with ⟨request, hrequest, hlib, hp⟩
      rw [HttpCallback.on_eq, HttpCallback.cbWith] at hp
      split at hp
      . exact ht.quiet hp (by simp) rfl rfl (by simp)
      . exact ht.quiet hp (by simp) rfl rfl (by simp)
    | run index =>
      rcases step_run hstep with ⟨runnable, hrunnable, hlib, hp⟩
      have hmem := List.mem_of_getElem? hrunnable
      rcases (tracked_of_reachable hreachable).at_of_queue hmem with
        ⟨start, _, hstarted, _, hstage⟩
      rcases (built_of_reachable hreachable fun _ _ h => h.given).starts _ _ hstarted with
        ⟨threadDispatcher, now, hhttp, hmain, _⟩
      rw [hhttp.given now] at hmain
      exact ht.run hok.fifo hrunnable hp hstage hmain
    | drop cell =>
      rcases step_drop hstep with ⟨_, rfl⟩
      exact ⟨ht.lists, ht.contexts⟩

structure InOrder (s : State) : Prop where
  inOrder : shownLists s.trace <+: answeredLists s.trace
  queued : answeredLists s.trace = shownLists s.trace ++ pendingLists s.queue
  latest : pendingLists s.queue = [] →
    (shownLists s.trace).getLast? = (answeredLists s.trace).getLast?

theorem updates_in_order (hs : (machine F).Reachable (OneMain main) s) : InOrder s := by
  have hlists := (ordered_of_reachable hs).lists
  refine ⟨?_, hlists, ?_⟩
  . rw [hlists]
    exact List.prefix_append _ _
  . intro hpending
    rw [hlists, hpending, List.append_nil]

theorem along_oneMain {as : List Action}
    (hgiven : ∀ action ∈ as, ∀ s, Gives (fun _ threadDispatcher => ∀ now,
      threadDispatcher.getSerialExecutionContext now mainExecutionContext = some main) s action)
    (hfifo : (machine F).Along (fun s action => fifo main s action = true) s as)
    : (machine F).Along (OneMain main) s as := by
  apply (System.along_of_forall hgiven).and hfifo
  intro s action hgiven hfifo
  exact ⟨hgiven, hfifo⟩

-- both replies wait in the queue, so the second answer comes before the first update
def overlappingActions : List Action :=
  [.createApi (some 0) twoContexts, .observerTransactionList 0, .start 0 5 [lit "a"] ⟨0⟩ 7,
    .start 0 5 [lit "b"] ⟨0⟩ 8, .deliver 0 (.success 200 (lit "\x7b\x7d")),
    .deliver 0 (.success 200 (lit "\x7b\x7d")), .run 0, .run 0, .run 0, .run 0,
    .deliver 0 (.success 200 (lit "\x7b\x7d")), .deliver 0 (.success 200 (lit "\x7b\x7d")),
    .run 0, .run 0, .run 0]

theorem overlappingActions_exec
    : ((machine Double.integers).exec (machine Double.integers).init overlappingActions).isSome
        = true := by
  decide +kernel

def overlappingState : State :=
  ((machine Double.integers).exec (machine Double.integers).init overlappingActions).get
    overlappingActions_exec

theorem overlappingState_reachable
    : (machine Double.integers).Reachable (OneMain 0) overlappingState := by
  apply System.reachable_exec overlappingActions_exec
  apply along_oneMain
  . simp [overlappingActions, Gives, twoContexts]
  . decide +kernel

theorem updates_in_order_overlapping : InOrder overlappingState :=
  updates_in_order overlappingState_reachable

theorem not_always_latest : ¬∀ (F : Double) (main : Context) (s : State),
    (machine F).Reachable (OneMain main) s →
      shownLists s.trace <+: answeredLists s.trace
        ∧ (shownLists s.trace ≠ [] →
            (shownLists s.trace).getLast? = (answeredLists s.trace).getLast?) := by
  intro h
  have hshown : shownLists overlappingState.trace = [(1, lit "[]")] := by
    decide +kernel
  have hanswered : answeredLists overlappingState.trace = [(1, lit "[]"), (2, lit "[]")] := by
    decide +kernel
  have := (h _ _ _ overlappingState_reachable).2
  rw [hshown, hanswered] at this
  simp at this

end LedgerApp
