import LedgerApp.Machine

/-!
The library in Node, where one thread takes one job after another: a call of an entry point, or a
reaction of the promise chain that `NJSHttpImpl.get` builds around a request. A context runs a
Runnable at once, within the job that submits it. The handlers of the user interface may raise: the
C++ code goes on after the call, and the job raises when it ends. A handler does not call the
library itself.
-/

namespace LedgerApp

open Bytes

/-- What `respond` and `on_update` of the user interface do to its state, and whether they raise. -/
structure Handlers (υ : Type) where
  respond : HandleResponse → Response → υ → υ × Bool
  onUpdate : Observer → TransactionListVm → υ → υ × Bool

def Handlers.on {υ : Type} (handlers : Handlers υ) (call : Call) (user : υ) : υ × Bool :=
  match call with
  | .respond handle result => handlers.respond handle result user
  | .onUpdate observer newData => handlers.onUpdate observer newData user
  | _ => (user, false)

/-- The calls that are left to do; a job that is the `on_success` of a request has a `catch` behind
it. -/
structure Job where
  origin : Nat
  request : Option Request
  calls : List Call
  raised : Bool

/-- `raised` are the requests whose `on_success` raised and whose `catch` comes next. -/
structure NodeState (υ : Type) extends World where
  user : υ
  job : Option Job
  raised : List Request

inductive NodeAction where
  | createApi (httpImpl : Option HttpImpl) (threadDispatcher : ThreadDispatcher)
  | observerTransactionList (api : Nat)
  | start (handle : HandleRef) (observer : Observer) (addresses : List Str) (options : ApiOptions)
      (response : HandleResponse)
  | settle (index : Nat) (reply : Reply)
  | caught (index : Nat) (err : Str)
  | advance

-- `then(on_success)` is followed by `catch(on_network_error)`, which is followed by nothing
def Request.chained (request : Request) : Reply → Option Request
  | .success _ _ => some request
  | .networkError _ => none

namespace NodeState

variable {υ : Type}

def init (user : υ) : NodeState υ where
  toWorld := World.init
  user := user
  job := none
  raised := []

def finish (n : NodeState υ) (job : Job) : NodeState υ :=
  match job.raised, job.request with
  | true, some request => { n with job := none, raised := n.raised ++ [request] }
  | _, _ => { n with job := none }

-- `NJSContextImpl.execute = runnable => runnable.run()`
def advance (F : Json11.Double) (handlers : Handlers υ) (n : NodeState υ) (job : Job)
    : NodeState υ :=
  match job.calls with
  | [] => n.finish job
  | .execute context task :: calls =>
    let runnable := { origin := job.origin, cell := n.cells.length, context, task }
    let w := n.toWorld.perform job.origin [.execute context task]
    { n with
      toWorld := w.log (.ran runnable)
      job := some { job with calls := w.body F runnable ++ calls } }
  | call :: calls =>
    let (user, raised) := handlers.on call n.user
    { n with
      toWorld := n.toWorld.perform job.origin [call]
      user := user
      job := some { job with calls := calls, raised := job.raised || raised } }

end NodeState

variable {υ : Type}

-- the thread takes up a job only when it has none
def enter (n : NodeState υ) (action : NodeAction) : Option (NodeState υ) :=
  match action with
  | .createApi httpImpl threadDispatcher =>
    some { n with lib := n.lib.createApi httpImpl threadDispatcher }
  | .observerTransactionList api =>
    match n.lib.observerTransactionList api with
    | some lib => some { n with lib := lib }
    | none => none
  | .start handle observer addresses options response =>
    match n.lib.start handle observer addresses options response with
    | some (lib, start, calls) =>
      let origin := n.lib.now
      let w := { n.toWorld with lib := lib }.log (.started origin start)
      some { n with toWorld := w, job := some { origin, request := none, calls, raised := false } }
    | none => none
  | .settle index reply =>
    match n.requests[index]? with
    | some request =>
      let w := { n.toWorld with requests := n.requests.eraseIdx index }.log
        (.replied request.origin request.callback.cb reply)
      let job : Job :=
        { origin := request.origin, request := request.chained reply,
          calls := request.callback.on reply, raised := false }
      some { n with toWorld := w, job := some job }
    | none => none
  | .caught index err =>
    match n.raised[index]? with
    | some request =>
      let w := n.toWorld.log (.replied request.origin request.callback.cb (.networkError err))
      let job : Job :=
        { origin := request.origin, request := none,
          calls := request.callback.onNetworkError err, raised := false }
      some { n with toWorld := w, job := some job, raised := n.raised.eraseIdx index }
    | none => none
  | .advance => none

def nodeStep (F : Json11.Double) (handlers : Handlers υ) (n : NodeState υ) (action : NodeAction)
    : Option (NodeState υ) :=
  match n.job, action with
  | some job, .advance => some (n.advance F handlers job)
  | some _, _ => none
  | none, action => enter n action

def node (F : Json11.Double) (handlers : Handlers υ) (user : υ)
    : System (NodeState υ) NodeAction where
  init := NodeState.init user
  step := nodeStep F handlers

/-! ## `getTransactions` -/

-- the promise of one call, settled at most once
inductive Promise (V : Type) where
  | pending
  | resolved (value : V)
  | rejected (reason : Str)
deriving DecidableEq, Repr

def Promise.settle {V : Type} (promise : Promise V) (settled : Promise V) : Promise V :=
  match promise with
  | .pending => settled
  | _ => promise

abbrev Promises (V : Type) := HandleResponse → Promise V

-- one context per name, and the library asks for two
def NJSThreadDispatcherImpl : ThreadDispatcher where
  getSerialExecutionContext := fun _ name => some (if name = mainExecutionContext then 0 else 1)

section

variable {V : Type}

-- an empty `error` counts as false; `JSON.parse` raises on a text that is not JSON
def NJSItfHandleResponseImpl (jsonParse : Str → Option V) : Handlers (Promises V) where
  respond := fun handle response promises =>
    if response.error ≠ [] then
      (Function.update promises handle ((promises handle).settle (.rejected response.error)), false)
    else
      match jsonParse response.result with
      | some value =>
        (Function.update promises handle ((promises handle).settle (.resolved value)), false)
      | none => (promises, true)
  onUpdate := fun _ _ promises => (promises, false)

inductive JsAction where
  | getTransactions (addresses : List Str) (currency : ApiOptions)
  | settle (index : Nat) (reply : Reply)
  | caught (index : Nat) (err : Str)
  | advance

-- each call makes an api, a handle and a response handle of its own
def getTransactionsActions (n : NodeState υ) (addresses : List Str) (currency : ApiOptions)
    : List NodeAction :=
  [.createApi (some 0) NJSThreadDispatcherImpl, .observerTransactionList n.lib.apis.length,
    .start n.lib.handles.length n.lib.handles.length addresses currency n.lib.handles.length]

def jsActions (n : NodeState υ) : JsAction → List NodeAction
  | .getTransactions addresses currency => getTransactionsActions n addresses currency
  | .settle index reply => [.settle index reply]
  | .caught index err => [.caught index err]
  | .advance => [.advance]

def jsStep (F : Json11.Double) (jsonParse : Str → Option V) (n : NodeState (Promises V))
    (action : JsAction) : Option (NodeState (Promises V)) :=
  (node F (NJSItfHandleResponseImpl jsonParse) fun _ => .pending).exec n (jsActions n action)

def js (F : Json11.Double) (jsonParse : Str → Option V)
    : System (NodeState (Promises V)) JsAction where
  init := NodeState.init fun _ => .pending
  step := jsStep F jsonParse

end
end LedgerApp
