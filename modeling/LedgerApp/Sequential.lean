import LedgerApp.Captures
import LedgerApp.Lemmas.Environment

/-!
One `start` read from its first request to its update, as if each reply came at once and each
Runnable ran at once: what the user interface and the server see of it, given the replies.
-/

namespace LedgerApp

open Bytes Json11

inductive Visible where
  | get (url : Str) (header : Option (List HttpHeader))
  | respond (handle : HandleResponse) (result : Response)
  | onUpdate (observer : Observer) (transactions : List TransactionListVmCell)
deriving DecidableEq, Repr

def Call.visible : Call → List Visible
  | .get _ url header _ => [.get url header]
  | .respond handle result => [.respond handle result]
  | .onUpdate observer newData => [.onUpdate observer newData.transactions]
  | _ => []

def visible (origin : Nat) (trace : List Event) : List Visible :=
  (calls origin trace).flatMap Call.visible

/-- The replies to the two requests of one `start`. -/
structure Answers where
  token : Reply
  transactions : Reply
deriving DecidableEq, Repr

def Answers.to (answers : Answers) : HttpHandler → Reply
  | .token _ => answers.token
  | .transactions _ => answers.transactions

section

variable (F : Double) (start : Start) (answers : Answers)

namespace Start

def failed (e : Str) : List Visible :=
  [.respond start.response { error := e, result := [] }]

def succeeded (vCells : List TransactionListVmCell) : List Visible :=
  .respond start.response { error := [], result := listText vCells } ::
    if start.mainContext.isSome then [.onUpdate start.observer vCells] else []

def onTransactions (resp : HttpResponse) : List Visible :=
  match resp.read F with
  | .error e => start.failed e
  | .ok json =>
    if json.isObject then start.succeeded ((listed json).map cellOf) else []

-- a request and what its reply leads to
def ask (url : Str) (header : List HttpHeader) (replied : List Visible) : List Visible :=
  if start.http.impl.isSome then
    .get url (some header) :: if start.http.context.isSome then replied else []
  else
    []

def askTransactions (header : List HttpHeader) : List Visible :=
  start.ask start.txUrl header (start.onTransactions F answers.transactions.response)

def onToken (resp : HttpResponse) : List Visible :=
  match resp.read F with
  | .error e => start.failed e
  | .ok json =>
    if start.backContext.isSome then
      start.askTransactions F answers (tokenHeader (json.get (lit "token")).stringValue)
    else
      []

def outcome : List Visible :=
  start.ask start.tokenUrl [] (start.onToken F answers answers.token.response)

end Start

/-! ## What a task and a call lead to -/

def Task.outcome : Task → List Visible
  | .reply (.token _) resp => start.onToken F answers resp
  | .reply (.transactions _) resp => start.onTransactions F resp
  | .getTransactions closure => start.askTransactions F answers closure.header
  | .update closure => closure.call.flatMap Call.visible

def HttpCallback.outcome (callback : HttpCallback) : List Visible :=
  if callback.context.isSome then
    (Task.reply callback.cb (answers.to callback.cb).response).outcome F start answers
  else
    []

def Call.outcome : Call → List Visible
  | .get _ url header callback => .get url header :: callback.outcome F start answers
  | .execute _ task => task.outcome F start answers
  | call => call.visible

-- the body of a Runnable of this `start`, when the closure of `tx_task` is there and the handle has
-- the observer of this `start`
def Start.body (runnable : Runnable) : List Call :=
  match runnable.task with
  | .reply (.token closure) resp => closure.call F resp
  | .reply (.transactions closure) resp =>
    closure.call F (some start.response) (fun _ => some start.observer) resp
  | .getTransactions closure => closure.call runnable.cell
  | .update closure => closure.call

end

variable {F : Double} {start : Start} {answers : Answers}

theorem Start.getObserver_fixed (start : Start)
    : (fun _ : HandleRef => some start.observer) start.handle = some start.observer := rfl

theorem body_eq {runnable : Runnable} {w : World} (h : runnable.task.Own start w.cells)
    (hobserver : w.lib.getObserver start.handle = some start.observer)
    (hpresent : ∀ cell, refersTo F runnable.task = some cell → w.cells[cell]? ≠ some none)
    : w.body F runnable = start.body F runnable := by
  unfold World.body Start.body Task.call
  generalize runnable.task = task at h hpresent
  cases task with
  | reply callback resp =>
    cases callback with
    | token closure => rfl
    | transactions closure =>
      rcases h with ⟨cell, token, rfl, hkept⟩
      dsimp only
      rw [TxReply.call_eq, TxReply.call_eq]
      simp only [refersTo] at hpresent
      split
      . next hread =>
        rw [hread] at hpresent
        rw [Start.txReply, responseIn_of_present (hkept.resolve_right (hpresent cell rfl))]
        rfl
      . split
        . rw [Start.txReply, Start.callback_call start hobserver,
            Start.callback_call start start.getObserver_fixed]
        . rfl
  | getTransactions closure => rfl
  | update closure => rfl

theorem outcome_printed (json : Json F) (calls : List Call)
    : (printed json ++ calls).flatMap (Call.outcome F start answers)
        = calls.flatMap (Call.outcome F start answers) := by
  unfold printed
  split
  . rfl
  . rfl

theorem outcome_on (callback : HttpCallback)
    : (callback.on (answers.to callback.cb)).flatMap (Call.outcome F start answers)
        = callback.outcome F start answers := by
  rw [HttpCallback.on_eq, HttpCallback.cbWith, HttpCallback.outcome]
  generalize callback.context = context
  cases context with
  | none => rfl
  | some context => simp [Call.outcome]

theorem outcome_body {runnable : Runnable} {cells : List (Option Task)}
    (h : runnable.task.Own start cells)
    : (start.body F runnable).flatMap (Call.outcome F start answers)
        = runnable.task.outcome F start answers := by
  unfold Start.body
  generalize runnable.task = task at h
  cases task with
  | reply callback resp =>
    cases callback with
    | token closure =>
      rw [show closure = start.tokenReply from h]
      dsimp only
      rw [TokenReply.call_eq, Task.outcome, Start.onToken]
      generalize resp.read F = x
      cases x with
      | error e => rfl
      | ok json =>
        dsimp only
        rw [Start.tokenContinuation_call]
        generalize start.backContext = context
        cases context with
        | none => rfl
        | some context => simp [Call.outcome, Task.outcome, Start.txTask]
    | transactions closure =>
      rcases h with ⟨cell, token, rfl, _⟩
      dsimp only
      rw [TxReply.call_eq, Task.outcome, Start.onTransactions]
      generalize resp.read F = x
      cases x with
      | error e => rfl
      | ok json =>
        dsimp only
        split
        . rw [outcome_printed, Start.txReply, Start.callback_call start start.getObserver_fixed,
            Start.succeeded]
          generalize start.mainContext = context
          cases context with
          | none => rfl
          | some context => rfl
        . rfl
  | getTransactions closure =>
    rcases h with ⟨token, rfl⟩
    dsimp only
    rw [Start.txTask_call, Task.outcome, Start.askTransactions, Start.ask]
    generalize start.http.impl = impl
    cases impl with
    | none => rfl
    | some impl =>
      simp [Call.outcome, HttpCallback.outcome, Start.txCallback, Start.txTask, Answers.to,
        Task.outcome]
  | update closure =>
    dsimp only
    rw [Task.outcome, Update.call]
    generalize closure.observer = observer
    cases observer with
    | none => rfl
    | some observer => rfl

theorem outcome_start
    : (start.call start.testnetMode).flatMap (Call.outcome F start answers)
        = start.outcome F answers := by
  rw [Start.call_eq, Start.outcome, Start.ask]
  generalize start.http.impl = impl
  cases impl with
  | none => rfl
  | some impl =>
    simp [Call.outcome, HttpCallback.outcome, Start.tokenCallback, Answers.to, Task.outcome]

/-! ## The last call of a body -/

def Call.continues : Call → Bool
  | .get _ _ _ _ => true
  | .execute _ _ => true
  | _ => false

def ContinuesLast : List Call → Prop
  | [] => True
  | call :: calls => (call.continues = true → calls = []) ∧ ContinuesLast calls

theorem ContinuesLast.drop {calls : List Call} (h : ContinuesLast calls) (n : Nat)
    : ContinuesLast (calls.drop n) := by
  induction n generalizing calls with
  | zero => exact h
  | succ n ih =>
    cases calls with
    | nil => trivial
    | cons call calls => exact ih h.2

theorem continuesLast_of_length {calls : List Call} (h : calls.length ≤ 1)
    : ContinuesLast calls := by
  cases calls with
  | nil => trivial
  | cons call calls =>
    have : calls = [] := by simpa using h
    rw [this]
    exact ⟨fun _ => rfl, trivial⟩

theorem continuesLast_printed (json : Json F) {calls : List Call} (h : ContinuesLast calls)
    : ContinuesLast (printed json ++ calls) := by
  unfold printed
  split
  . exact ⟨by simp [Call.continues], h⟩
  . exact h

theorem continuesLast_body (runnable : Runnable) : ContinuesLast (start.body F runnable) := by
  unfold Start.body
  split
  . rw [TokenReply.call_eq]
    split
    . exact continuesLast_of_length (by simp)
    . unfold TokenContinuation.call
      split
      . exact continuesLast_of_length (by simp)
      . exact continuesLast_of_length (by simp)
  . rw [TxReply.call_eq]
    split
    . exact continuesLast_of_length (by simp [respondBy])
    . split
      . apply continuesLast_printed
        rw [StartCallback.call_eq]
        refine ⟨by simp [Call.continues], ?_⟩
        split
        . exact continuesLast_of_length (by simp)
        . trivial
      . trivial
  . unfold TxTask.call Http.get
    split
    . split
      . exact continuesLast_of_length (by simp)
      . trivial
    . exact continuesLast_of_length (by simp)
  . unfold Update.call
    split
    . exact continuesLast_of_length (by simp)
    . exact continuesLast_of_length (by simp)

end LedgerApp
