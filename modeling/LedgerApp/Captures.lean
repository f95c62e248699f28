import LedgerApp.Answers

/-!
The only by-reference capture that is used, the response handle in the handler of the transactions
reply, and the life time of the closure it refers to.
-/

namespace LedgerApp

open Bytes Json11

variable {F : Double} {s s' : State}

/-- The cell that the handler looks the response handle up in, when its reply failed. -/
def refersTo (F : Double) : Task → Option Cell
  | .reply (.transactions closure) resp =>
    match resp.read F with
    | .ok _ => none
    | .error _ => some closure.enclosing
  | _ => none

-- a reply fails only while the closure of its `tx_task` is there, and that closure is not dropped
-- until the handler of the failed reply has looked the response handle up
def keeps (F : Double) (s : State) : Action → Bool
  | .deliver index reply =>
    match s.requests[index]? with
    | some request =>
      match refersTo F (.reply request.callback.cb reply.response) with
      | some cell => s.cells[cell]? != some none
      | none => true
    | none => true
  | .drop cell => s.queue.all fun runnable => refersTo F runnable.task != some cell
  | _ => true

def Present (F : Double) (s : State) : Prop :=
  ∀ runnable ∈ s.queue, ∀ cell, refersTo F runnable.task = some cell → s.cells[cell]? ≠ some none

-- a Runnable does not submit the handler of a reply, so no reference appears where there was none
theorem refersTo_body {runnable : Runnable} {getObserver : HandleRef → Option Observer}
    {cells : List (Option Task)} {context : Context} {task : Task}
    (h : .execute context task ∈ runnable.task.call F runnable.cell cells getObserver)
    : refersTo F task = none := by
  have hmakes := Task.makes_of_mem h
  cases task with
  | reply callback resp => exact absurd hmakes id
  | getTransactions closure => rfl
  | update closure => rfl

theorem Stage.cell_cases {cells : List (Option Task)} {origin : Nat} {start : Start}
    {requests : List Request} {trace : List Event} {runnable : Runnable} {cell : Cell}
    (h : Stage F cells origin start requests [runnable] trace)
    (hcell : refersTo F runnable.task = some cell)
    : ∃ closure : TxTask, closure.response = start.response
        ∧ Kept cells cell (.getTransactions closure) := by
  cases h.queued.2 with
  | reply p hp hkept =>
    simp only [Path.replyRunnable, refersTo, Start.txReply] at hcell
    split at hcell
    . contradiction
    . simp only [Option.some.injEq] at hcell
      rw [← hcell]
      exact ⟨_, rfl, hkept⟩
  | token p hp
  | transactions p hp _
  | update p hp => contradiction

theorem dropped_append {cells : List (Option Task)} {calls : List Call} {cell : Cell}
    (h : (cells ++ tasks calls)[cell]? = some none) : cells[cell]? = some none := by
  rw [List.getElem?_append] at h
  split at h
  . exact h
  . exact absurd (List.mem_of_getElem? h) tasks_ne_none

theorem present_of_reachable
    (h : (machine F).Reachable (fun s action => keeps F s action = true) s) : Present F s := by
  apply h.invariant
  . intro runnable hrunnable
    simp [machine, State.init] at hrunnable
  . intro t action u _ ht hok hstep
    change step F t action = some u at hstep
    have hadded : ∀ {origin event calls requests queue},
        Performed t u origin event calls requests queue →
        (∀ runnable ∈ queue, runnable ∈ t.queue) →
        (∀ context task, .execute context task ∈ calls → ∀ cell, refersTo F task = some cell →
          t.cells[cell]? ≠ some none) → Present F u := by
      intro origin event calls requests queue hp hqueue hcalls runnable hrunnable cell hcell
        hdropped
      rw [hp.cells] at hdropped
      rcases hp.mem_queue hrunnable with hrunnable | ⟨_, hexecute⟩
      . exact ht runnable (hqueue runnable hrunnable) cell hcell (dropped_append hdropped)
      . exact hcalls _ _ hexecute cell hcell (dropped_append hdropped)
    cases action with
    | createApi httpImpl threadDispatcher =>
      rw [step_createApi hstep]
      exact ht
    | observerTransactionList api =>
      rcases step_observerTransactionList hstep with ⟨lib, hlib, rfl⟩
      exact ht
    | start handle observer addresses options response =>
      rcases step_start hstep with ⟨start, _, hp⟩
      apply hadded hp
      . exact fun _ h => h
      . intro context task hmem
        rcases Start.mem_call hmem with ⟨impl, heq⟩
        simp at heq
    | deliver index reply =>
      rcases step_deliver hstep with ⟨request, hrequest, _, hp⟩
      apply hadded hp
      . exact fun _ h => h
      . intro context task hmem cell hcell
        rcases HttpCallback.mem_on hmem with ⟨context', heq⟩
        rw [Call.execute.injEq] at heq
        rw [heq.2] at hcell
        simpa [keeps, hrequest, hcell] using hok
    | run index =>
      rcases step_run hstep with ⟨runnable, _, _, hp⟩
      apply hadded hp
      . exact fun _ h => List.mem_of_mem_eraseIdx h
      . intro context task hmem cell hcell
        rw [refersTo_body hmem] at hcell
        contradiction
    | drop cell =>
      rcases step_drop hstep with ⟨_, rfl⟩
      intro runnable hrunnable other hother hdropped
      dsimp only at hdropped hrunnable
      rw [List.getElem?_set] at hdropped
      split at hdropped
      . next heq =>
        simp only [keeps, List.all_eq_true] at hok
        have := hok runnable hrunnable
        rw [hother, heq] at this
        simp at this
      . exact ht runnable hrunnable other hother hdropped

theorem captures_alive (hs : (machine F).Reachable (fun s action => keeps F s action = true) s)
    {runnable : Runnable} (hrunnable : runnable ∈ s.queue) {cell : Cell}
    (hcell : refersTo F runnable.task = some cell)
    : ∃ start closure, .started runnable.origin start ∈ s.trace
        ∧ s.cells[cell]? = some (some (.getTransactions closure))
        ∧ closure.response = start.response := by
  have hpresent := present_of_reachable hs runnable hrunnable cell hcell
  rcases (tracked_of_reachable hs).at_of_queue hrunnable with ⟨start, observer, hstarted, _, hstage⟩
  rcases Stage.cell_cases hstage hcell with ⟨closure, hresponse, hkept⟩
  rcases hkept with hkept | hkept
  . exact ⟨start, closure, hstarted, hkept, hresponse⟩
  . exact absurd hkept hpresent

def failedActions : List Action :=
  [.createApi (some 0) twoContexts, .observerTransactionList 0, .start 0 5 [lit "a"] ⟨0⟩ 7,
    .deliver 0 (.success 200 (lit "\x7b\x7d")), .run 0, .run 0,
    .deliver 0 (.networkError (lit "timeout"))]

theorem failedActions_exec
    : ((machine Double.integers).exec (machine Double.integers).init failedActions).isSome
        = true := by
  decide +kernel

def failedState : State :=
  ((machine Double.integers).exec (machine Double.integers).init failedActions).get
    failedActions_exec

theorem failedState_queue : failedState.queue ≠ [] := by
  decide +kernel

theorem captures_alive_failed
    : ∃ start closure, .started (failedState.queue.head failedState_queue).origin start
          ∈ failedState.trace
        ∧ failedState.cells[1]? = some (some (.getTransactions closure))
        ∧ closure.response = start.response :=
  captures_alive (System.reachable_exec failedActions_exec (by decide +kernel))
    (List.head_mem failedState_queue) (by decide +kernel)

-- the context drops the Runnable of `tx_task` as soon as it has run it
def droppedActions : List Action :=
  [.createApi (some 0) twoContexts, .observerTransactionList 0, .start 0 5 [lit "a"] ⟨0⟩ 7,
    .deliver 0 (.success 200 (lit "\x7b\x7d")), .run 0, .drop 0, .run 0, .drop 1,
    .deliver 0 (.networkError (lit "timeout"))]

theorem droppedActions_exec
    : ((machine Double.integers).exec (machine Double.integers).init droppedActions).isSome
        = true := by
  decide +kernel

def droppedState : State :=
  ((machine Double.integers).exec (machine Double.integers).init droppedActions).get
    droppedActions_exec

theorem droppedState_queue : droppedState.queue ≠ [] := by
  decide +kernel

theorem not_always_alive : ¬∀ (F : Double) (s : State), (machine F).Reachable System.free s →
    ∀ runnable ∈ s.queue, ∀ cell, refersTo F runnable.task = some cell →
    ∃ start closure, .started runnable.origin start ∈ s.trace
      ∧ s.cells[cell]? = some (some (.getTransactions closure))
      ∧ closure.response = start.response := by
  intro h
  have hdropped : droppedState.cells[1]? = some none := by
    decide +kernel
  have hreachable : (machine Double.integers).Reachable System.free droppedState :=
    System.reachable_exec droppedActions_exec (System.along_free _ _)
  rcases h _ _ hreachable _ (List.head_mem droppedState_queue) 1 (by decide +kernel) with
    ⟨start, closure, _, hcell, _⟩
  rw [hdropped] at hcell
  simp at hcell

end LedgerApp
