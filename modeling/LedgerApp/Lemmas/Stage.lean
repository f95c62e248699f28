import LedgerApp.Stage

/-!
Every step taken on behalf of a `start` leads from one of its stages to another.
-/

namespace LedgerApp

open Bytes Json11

variable {F : Double} {cells : List (Option Task)} {origin : Nat} {start : Start}
variable {requests : List Request} {queue : List Runnable} {trace : List Event}

theorem Kept.lt {cell : Cell} {task : Task} (h : Kept cells cell task) : cell < cells.length := by
  rcases h with h | h
  . exact (List.getElem?_eq_some_iff.mp h).1
  . exact (List.getElem?_eq_some_iff.mp h).1

theorem Kept.append {cell : Cell} {task : Task} (h : Kept cells cell task)
    (more : List (Option Task)) : Kept (cells ++ more) cell task := by
  have hlt := h.lt
  unfold Kept
  rw [List.getElem?_append_left hlt]
  exact h

theorem Kept.set {cell : Cell} {task : Task} (h : Kept cells cell task) (dropped : Cell)
    : Kept (cells.set dropped none) cell task := by
  have hlt := h.lt
  unfold Kept
  rw [List.getElem?_set]
  split
  . next heq =>
    right
    simp [heq, hlt]
  . exact h

theorem Kept.last (task : Task) : Kept (cells ++ [some task]) cells.length task := by
  left
  simp

theorem responseIn_of_present {cell : Cell} {closure : TxTask}
    (h : cells[cell]? = some (some (.getTransactions closure)))
    : responseIn cells cell = some closure.response := by
  unfold responseIn
  rw [h]

theorem responseIn_of_dropped {cell : Cell} (h : cells[cell]? = some none)
    : responseIn cells cell = none := by
  unfold responseIn
  rw [h]

theorem issued_printed (json : Json F) (calls : List Call)
    : issued origin (printed json ++ calls) = issued origin calls := by
  unfold printed
  split
  . rfl
  . rfl

theorem tasks_printed (json : Json F) (calls : List Call)
    : tasks (printed json ++ calls) = tasks calls := by
  unfold printed
  split
  . rfl
  . rfl

theorem submitted_printed (json : Json F) (cell : Cell) (calls : List Call)
    : submitted origin cell (printed json ++ calls) = submitted origin cell calls := by
  unfold printed
  split
  . rfl
  . rfl

namespace Stage

theorem mono {cells' : List (Option Task)} (h : Stage F cells origin start requests queue trace)
    (hcells : ∀ cell task, Kept cells cell task → Kept cells' cell task)
    : Stage F cells' origin start requests queue trace := by
  cases h with
  | silent himpl => exact .silent himpl
  | tokenRequested p h => exact .tokenRequested p h
  | tokenLost p h hcontext => exact .tokenLost p h hcontext
  | tokenReplied p h => exact .tokenReplied p h
  | tokenFailed p h e he => exact .tokenFailed p h e he
  | noBack p h hback => exact .noBack p h hback
  | granted p h hcell => exact .granted p h (hcells _ _ hcell)
  | txRequested p h hcell => exact .txRequested p h (hcells _ _ hcell)
  | txReplied p h hcell => exact .txReplied p h (hcells _ _ hcell)
  | txFailed p h e he => exact .txFailed p h e he
  | txDangling p h e he => exact .txDangling p h e he
  | txIgnored p h hobject => exact .txIgnored p h hobject
  | answered p h hmain => exact .answered p h hmain
  | scheduled p h => exact .scheduled p h
  | updated p h => exact .updated p h

theorem requests_eq {request : Request} (h : Stage F cells origin start requests queue trace)
    (hmem : request ∈ requests) : requests = [request] := by
  cases h with
  | tokenRequested p h => rw [List.mem_singleton.mp hmem]
  | txRequested p h hcell => rw [List.mem_singleton.mp hmem]
  | _ => simp at hmem

theorem queue_eq {runnable : Runnable} (h : Stage F cells origin start requests queue trace)
    (hmem : runnable ∈ queue) : queue = [runnable] := by
  cases h with
  | tokenReplied p h => rw [List.mem_singleton.mp hmem]
  | granted p h hcell => rw [List.mem_singleton.mp hmem]
  | txReplied p h hcell => rw [List.mem_singleton.mp hmem]
  | scheduled p h => rw [List.mem_singleton.mp hmem]
  | _ => simp at hmem

inductive Queued (F : Double) (cells : List (Option Task)) (origin : Nat) (start : Start)
    : Runnable → List Event → Prop
  | token (p : Path F) (h : p.Replied start)
    : Queued F cells origin start (p.tokenRunnable origin start) (p.tokenReplied origin start)
  | transactions (p : Path F) (h : p.Granted start)
      (hcell : Kept cells p.txCell (p.txRunnable origin start).task)
    : Queued F cells origin start (p.txRunnable origin start) (p.granted origin start)
  | reply (p : Path F) (h : p.Granted start)
      (hcell : Kept cells p.txCell (p.txRunnable origin start).task)
    : Queued F cells origin start (p.replyRunnable origin start) (p.txReplied origin start)
  | update (p : Path F) (h : p.Scheduled start)
    : Queued F cells origin start (p.updateRunnable origin start) (p.scheduled origin start)

theorem queued {runnable : Runnable} (h : Stage F cells origin start requests [runnable] trace)
    : requests = [] ∧ Queued F cells origin start runnable trace := by
  generalize hqueue : [runnable] = queue at h
  cases h with
  | tokenReplied p h =>
    rw [List.singleton_inj.mp hqueue]
    exact ⟨rfl, .token p h⟩
  | granted p h hcell =>
    rw [List.singleton_inj.mp hqueue]
    exact ⟨rfl, .transactions p h hcell⟩
  | txReplied p h hcell =>
    rw [List.singleton_inj.mp hqueue]
    exact ⟨rfl, .reply p h hcell⟩
  | scheduled p h =>
    rw [List.singleton_inj.mp hqueue]
    exact ⟨rfl, .update p h⟩
  | _ => simp at hqueue

theorem started_mem_iff {other : Nat} {start' : Start}
    (h : Stage F cells origin start requests queue trace)
    : .started other start' ∈ trace ↔ other = origin ∧ start' = start := by
  cases h with
  | _ => simp

theorem callback_eq {runnable : Runnable} {closure : TxReply} {resp : HttpResponse}
    (h : Stage F cells origin start requests [runnable] trace)
    (htask : runnable.task = .reply (.transactions closure) resp)
    : closure.callback = start.callback := by
  cases h.queued.2 with
  | reply p hp _ =>
    simp only [Path.replyRunnable, Task.reply.injEq, HttpHandler.transactions.injEq] at htask
    rw [← htask.1, Start.txReply]
  | token p hp
  | transactions p hp _
  | update p hp => simp [Path.tokenRunnable, Path.txRunnable, Path.updateRunnable] at htask

theorem observer_ne_none {runnable : Runnable} {closure : Update}
    (h : Stage F cells origin start requests [runnable] trace)
    (htask : runnable.task = .update closure) : closure.observer ≠ none := by
  cases h.queued.2 with
  | update p hp =>
    simp only [Path.updateRunnable, Task.update.injEq] at htask
    simp [← htask]
  | token p hp
  | transactions p hp _
  | reply p hp _ => simp [Path.tokenRunnable, Path.txRunnable, Path.replyRunnable] at htask

-- the stage after the calls of one body, which starts with the given event
abbrev After (F : Double) (cells : List (Option Task)) (origin : Nat) (start : Start)
    (trace : List Event) (event : Event) (calls : List Call) : Prop :=
  Stage F (cells ++ tasks calls) origin start (issued origin calls)
    (submitted origin cells.length calls) (trace ++ event :: calls.map (.called origin))

theorem started (cells : List (Option Task)) (origin : Nat) (start : Start)
    : After F cells origin start [] (.started origin start) (start.call start.testnetMode) := by
  rw [Start.call_eq]
  generalize himpl : start.http.impl = impl
  cases impl with
  | none => exact .silent himpl
  | some impl => exact .tokenRequested { impl := impl } ⟨himpl⟩

theorem replied {request : Request}
    (h : Stage F cells origin start [request] queue trace) (reply : Reply)
    : queue = [] ∧ After F cells origin start trace (.replied origin request.callback.cb reply)
        (request.callback.on reply) := by
  rw [HttpCallback.on_eq]
  generalize hrequests : [request] = requests at h
  cases h with
  | tokenRequested p h =>
    simp only [List.cons.injEq, and_true] at hrequests
    rw [hrequests]
    refine ⟨rfl, ?_⟩
    simp only [HttpCallback.cbWith, Start.tokenCallback]
    generalize hcontext : start.http.context = context
    cases context with
    | none => exact .tokenLost { p with tokenAnswer := reply } ⟨h.impl⟩ hcontext
    | some context =>
      let q := { p with tokenAnswer := reply, context := context, tokenCell := cells.length }
      exact .tokenReplied q ⟨⟨h.impl⟩, hcontext⟩
  | txRequested p h hcell =>
    simp only [List.cons.injEq, and_true] at hrequests
    rw [hrequests]
    refine ⟨rfl, ?_⟩
    simp only [HttpCallback.cbWith, Start.txCallback, h.context]
    let q := { p with txAnswer := reply, replyCell := cells.length }
    exact .txReplied q ⟨⟨⟨⟨h.impl⟩, h.context⟩, h.tokenJson⟩, h.back⟩ (hcell.append _)
  | _ => simp at hrequests

theorem ran {runnable : Runnable} {getObserver : HandleRef → Option Observer} {observer : Observer}
    (h : Stage F cells origin start requests [runnable] trace)
    (hobserver : getObserver start.handle = some observer)
    : requests = [] ∧ After F cells origin start trace (.ran runnable)
        (runnable.task.call F runnable.cell cells getObserver) := by
  refine ⟨h.queued.1, ?_⟩
  cases h.queued.2 with
  | token p hp =>
    simp only [Path.tokenRunnable, Task.call]
    rw [TokenReply.call_eq, Reply.read_response]
    generalize hread : p.tokenAnswer.read F = x
    cases x with
    | error e => exact .tokenFailed p hp e hread
    | ok json =>
      dsimp only
      rw [Start.tokenContinuation_call]
      generalize hback : start.backContext = context
      cases context with
      | none => exact .noBack { p with tokenJson := json } ⟨⟨⟨hp.impl⟩, hp.context⟩, hread⟩ hback
      | some context =>
        let q := { p with tokenJson := json, back := context, txCell := cells.length }
        exact .granted q ⟨⟨⟨⟨hp.impl⟩, hp.context⟩, hread⟩, hback⟩ (.last _)
  | transactions p hp hcell =>
    simp only [Path.txRunnable, Task.call]
    rw [Start.txTask_call, hp.impl]
    exact .txRequested p hp (hcell.append _)
  | reply p hp hcell =>
    simp only [Path.replyRunnable, Task.call]
    rw [TxReply.call_eq, Reply.read_response]
    generalize hread : p.txAnswer.read F = x
    cases x with
    | error e =>
      rcases hcell with hcell | hcell
      . rw [Start.txReply, responseIn_of_present hcell]
        exact .txFailed p hp e hread
      . rw [Start.txReply, responseIn_of_dropped hcell]
        exact .txDangling p hp e hread
    | ok json =>
      have hlisted : ({ p with txJson := json } : Path F).Listed start :=
        ⟨⟨⟨⟨⟨hp.impl⟩, hp.context⟩, hp.tokenJson⟩, hp.back⟩, hread⟩
      dsimp only
      generalize hobject : json.isObject = object
      cases object with
      | false => exact .txIgnored { p with txJson := json } hlisted hobject
      | true =>
        rw [if_pos rfl, Start.txReply, Start.callback_call start hobserver]
        unfold After
        rw [tasks_printed, issued_printed, submitted_printed]
        generalize hmain : start.mainContext = context
        cases context with
        | none => exact .answered { p with txJson := json } ⟨hlisted, hobject⟩ hmain
        | some context =>
          let q := { p with
            txJson := json, main := context, observer := observer, updateCell := cells.length }
          have hgranted : q.Granted start := ⟨⟨⟨⟨hp.impl⟩, hp.context⟩, hp.tokenJson⟩, hp.back⟩
          exact .scheduled q ⟨⟨⟨hgranted, hread⟩, hobject⟩, hmain⟩
  | update p hp => exact .updated p hp

-- a null context of the background and a dropped `tx_task` are all that a Runnable can stumble on
theorem fault_cases {runnable : Runnable} {getObserver : HandleRef → Option Observer}
    {observer : Observer} (h : Stage F cells origin start requests [runnable] trace)
    (hobserver : getObserver start.handle = some observer)
    (hfault : .fault ∈ runnable.task.call F runnable.cell cells getObserver)
    : start.backContext = none
      ∨ ∃ closure resp e, runnable.task = .reply (.transactions closure) resp
          ∧ resp.read F = .error e ∧ cells[closure.enclosing]? = some none := by
  cases h.queued.2 with
  | token p hp =>
    simp only [Path.tokenRunnable, Task.call] at hfault
    rw [TokenReply.call_eq, Reply.read_response] at hfault
    left
    split at hfault
    . simp at hfault
    . rw [Start.tokenContinuation_call] at hfault
      split at hfault
      . simp at hfault
      . next hback => exact hback
  | transactions p hp hcell =>
    simp only [Path.txRunnable, Task.call] at hfault
    rw [Start.txTask_call, hp.impl] at hfault
    simp at hfault
  | reply p hp hcell =>
    simp only [Path.replyRunnable, Task.call] at hfault
    rw [TxReply.call_eq, Reply.read_response] at hfault
    right
    split at hfault
    . next e he =>
      rw [← Reply.read_response] at he
      rcases hcell with hcell | hcell
      . rw [Start.txReply, responseIn_of_present hcell] at hfault
        simp [respondBy] at hfault
      . exact ⟨_, _, e, rfl, he, hcell⟩
    . split at hfault
      . rw [Start.txReply, Start.callback_call start hobserver, List.mem_append] at hfault
        rcases hfault with hfault | hfault
        . unfold printed at hfault
          split at hfault
          . simp at hfault
          . simp at hfault
        . split at hfault
          . simp at hfault
          . simp at hfault
      . simp at hfault
  | update p hp => simp [Path.updateRunnable, Task.call, Update.call] at hfault

end Stage
end LedgerApp
