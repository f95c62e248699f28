import LedgerApp.Api
import LedgerApp.Transition

/-!
The library in an environment that queues what is submitted to its contexts. The user interface
calls the entry points, the platform replies to the requests in any order, and the contexts run the
Runnables they hold in any order and drop each of them some time after it was run. A body is one
step here, with all the calls it makes.

Every request, Runnable and event carries the time of the `start` that caused it, its origin. No
piece of the modelled code reads it.
-/

namespace LedgerApp

structure Request where
  origin : Nat
  callback : HttpCallback
deriving DecidableEq, Repr

/-- The closure of a Runnable lives in the cell `cell`, and `task` is its content. -/
structure Runnable where
  origin : Nat
  cell : Cell
  context : Context
  task : Task
deriving DecidableEq, Repr

inductive Event where
  | started (origin : Nat) (start : Start)
  | replied (origin : Nat) (callback : HttpHandler) (reply : Reply)
  | ran (runnable : Runnable)
  | called (origin : Nat) (call : Call)
deriving DecidableEq, Repr

def Event.origin : Event → Nat
  | .started origin _ => origin
  | .replied origin _ _ => origin
  | .ran runnable => runnable.origin
  | .called origin _ => origin

/-- A cell is empty once its last owner has dropped the closure. -/
structure World where
  lib : Lib
  requests : List Request
  cells : List (Option Task)
  trace : List Event

def issued (origin : Nat) (calls : List Call) : List Request :=
  calls.filterMap fun
    | .get _ _ _ callback => some { origin, callback }
    | _ => none

def tasks (calls : List Call) : List (Option Task) :=
  calls.filterMap fun
    | .execute _ task => some (some task)
    | _ => none

def submitted (origin : Nat) (cell : Cell) : List Call → List Runnable
  | [] => []
  | .execute context task :: calls =>
    { origin, cell, context, task } :: submitted origin (cell + 1) calls
  | _ :: calls => submitted origin cell calls

namespace World

def init : World where
  lib := Lib.init
  requests := []
  cells := []
  trace := []

def log (w : World) (event : Event) : World :=
  { w with trace := w.trace ++ [event] }

/-- The calls of one body; the Runnables it submits get the next cells. -/
def perform (w : World) (origin : Nat) (calls : List Call) : World :=
  { w with
    requests := w.requests ++ issued origin calls
    cells := w.cells ++ tasks calls
    trace := w.trace ++ calls.map (.called origin) }

def body (F : Json11.Double) (w : World) (runnable : Runnable) : List Call :=
  runnable.task.call F runnable.cell w.cells w.lib.getObserver

end World

structure State extends World where
  queue : List Runnable

inductive Action where
  | createApi (httpImpl : Option HttpImpl) (threadDispatcher : ThreadDispatcher)
  | observerTransactionList (api : Nat)
  | start (handle : HandleRef) (observer : Observer) (addresses : List Str) (options : ApiOptions)
      (response : HandleResponse)
  | deliver (index : Nat) (reply : Reply)
  | run (index : Nat)
  | drop (cell : Cell)

namespace State

def init : State where
  toWorld := World.init
  queue := []

def perform (s : State) (origin : Nat) (calls : List Call) : State where
  toWorld := s.toWorld.perform origin calls
  queue := s.queue ++ submitted origin s.cells.length calls

end State

def step (F : Json11.Double) (s : State) (action : Action) : Option State :=
  match action with
  | .createApi httpImpl threadDispatcher =>
    some { s with lib := s.lib.createApi httpImpl threadDispatcher }
  | .observerTransactionList api =>
    match s.lib.observerTransactionList api with
    | some lib => some { s with lib := lib }
    | none => none
  | .start handle observer addresses options response =>
    match s.lib.start handle observer addresses options response with
    | some (lib, start, calls) =>
      let origin := s.lib.now
      let w := { s.toWorld with lib := lib }.log (.started origin start)
      some ({ s with toWorld := w }.perform origin calls)
    | none => none
  | .deliver index reply =>
    match s.requests[index]? with
    | some request =>
      let w := { s.toWorld with requests := s.requests.eraseIdx index }.log
        (.replied request.origin request.callback.cb reply)
      some ({ s with toWorld := w }.perform request.origin (request.callback.on reply))
    | none => none
  | .run index =>
    match s.queue[index]? with
    | some runnable =>
      let w := s.toWorld.log (.ran runnable)
      some (State.perform { toWorld := w, queue := s.queue.eraseIdx index } runnable.origin
        (s.body F runnable))
    | none => none
  | .drop cell =>
    if cell < s.cells.length ∧ ∀ runnable ∈ s.queue, runnable.cell ≠ cell then
      some { s with cells := s.cells.set cell none }
    else
      none

def machine (F : Json11.Double) : System State Action where
  init := State.init
  step := step F

end LedgerApp
