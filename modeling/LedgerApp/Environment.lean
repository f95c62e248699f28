import LedgerApp.Machine

/-!
The library call by call, under any use the platform makes of its threads. A frame is a piece of the
library's code that was entered and has not returned yet; any frame may make its next call at any
time. So a context may run a Runnable inside `execute` or later and on any thread, an http
implementation may call back inside `get`, and the user interface may call the library inside
`respond`. What a body reads outside of its captures is read when it makes the call. Only `start` up
to its first request is one step, as dispatchers do not call the library.
-/

namespace LedgerApp

inductive Body where
  -- of an entry point of the library, with all its calls
  | entry (calls : List Call)
  | run (runnable : Runnable)
deriving DecidableEq, Repr

namespace Body

def calls (F : Json11.Double) (w : World) : Body → List Call
  | .entry calls => calls
  | .run runnable => w.body F runnable

def within : Body → Option Runnable
  | .entry _ => none
  | .run runnable => some runnable

end Body

/-- A body that was entered, of whose calls `made` were made so far. -/
structure Frame where
  origin : Nat
  body : Body
  made : Nat
deriving DecidableEq, Repr

def Frame.rest (F : Json11.Double) (w : World) (frame : Frame) : List Call :=
  (frame.body.calls F w).drop frame.made

def Frame.next (frame : Frame) : Frame :=
  { frame with made := frame.made + 1 }

/-- A call with the Runnable inside of which it was made. -/
structure Act where
  origin : Nat
  within : Option Runnable
  call : Call
deriving DecidableEq, Repr

structure EnvState extends World where
  queue : List Runnable
  active : List Frame
  acts : List Act

inductive EnvAction where
  | createApi (httpImpl : Option HttpImpl) (threadDispatcher : ThreadDispatcher)
  | observerTransactionList (api : Nat)
  | start (handle : HandleRef) (observer : Observer) (addresses : List Str) (options : ApiOptions)
      (response : HandleResponse)
  -- the platform may keep an `HttpCallback` and use it again, as the promises of Node do
  | deliver (index : Nat) (reply : Reply) (keep : Bool)
  | run (index : Nat)
  | proceed (index : Nat)
  | drop (cell : Cell)

namespace EnvState

def init : EnvState where
  toWorld := World.init
  queue := []
  active := []
  acts := []

def enter (s : EnvState) (origin : Nat) (event : Event) (body : Body) : EnvState :=
  { s with
    toWorld := s.toWorld.log event
    active := s.active ++ [{ origin, body, made := 0 }] }

def make (s : EnvState) (frame : Frame) (call : Call) : EnvState :=
  { s with
    toWorld := s.toWorld.perform frame.origin [call]
    queue := s.queue ++ submitted frame.origin s.cells.length [call]
    active := s.active ++ [frame.next]
    acts := s.acts ++ [{ origin := frame.origin, within := frame.body.within, call }] }

-- a frame without a next call returns
def proceed (F : Json11.Double) (s : EnvState) (index : Nat) (frame : Frame) : EnvState :=
  let s := { s with active := s.active.eraseIdx index }
  match frame.rest F s.toWorld with
  | [] => s
  | call :: _ => s.make frame call

def holds (s : EnvState) (cell : Cell) : Bool :=
  (s.queue ++ s.active.filterMap fun frame => frame.body.within).any fun runnable =>
    runnable.cell == cell

end EnvState

def envStep (F : Json11.Double) (s : EnvState) (action : EnvAction) : Option EnvState :=
  match action with
  | .createApi httpImpl threadDispatcher =>
    some { s with lib := s.lib.createApi httpImpl threadDispatcher }
  | .observerTransactionList api =>
    match s.lib.observerTransactionList api with
    | some lib => some { s with lib := lib }
    | none => none
  | .start handle observer addresses options response =>
    match s.lib.start handle observer addresses options response with
    | some (lib, start, calls) =>
      some ({ s with lib := lib }.enter s.lib.now (.started s.lib.now start) (.entry calls))
    | none => none
  | .deliver index reply keep =>
    match s.requests[index]? with
    | some request =>
      let requests := if keep then s.requests else s.requests.eraseIdx index
      some ({ s with requests := requests }.enter request.origin
        (.replied request.origin request.callback.cb reply) (.entry (request.callback.on reply)))
    | none => none
  | .run index =>
    match s.queue[index]? with
    | some runnable =>
      some ({ s with queue := s.queue.eraseIdx index }.enter runnable.origin (.ran runnable)
        (.run runnable))
    | none => none
  | .proceed index =>
    match s.active[index]? with
    | some frame => some (s.proceed F index frame)
    | none => none
  | .drop cell =>
    if cell < s.cells.length ∧ s.holds cell = false then
      some { s with cells := s.cells.set cell none }
    else
      none

def environment (F : Json11.Double) : System EnvState EnvAction where
  init := EnvState.init
  step := envStep F

end LedgerApp
