import LedgerApp.Client

/-!
The objects of the library and the entry points through which the user interface changes them. A
thread dispatcher belongs to the platform, which may answer differently at each call, so what it
returns depends on the time of the call.
-/

namespace LedgerApp

structure ThreadDispatcher where
  getSerialExecutionContext : Nat → Str → Option Context

structure Api where
  http : Http
  threadDispatcher : ThreadDispatcher

structure TransactionListVmHandle where
  http : Http
  observer : Option Observer
  threadDispatcher : ThreadDispatcher

/-- The state of the library, where `testnet_mode` is global; `now` counts the calls into it. -/
structure Lib where
  testnetMode : Bool
  apis : List Api
  handles : List TransactionListVmHandle
  now : Nat

/-- What a call of `start` is given, and what it reads in the handle and from the dispatcher. -/
structure Start where
  handle : HandleRef
  observer : Observer
  addresses : List Str
  options : ApiOptions
  response : HandleResponse
  http : Http
  mainContext : Option Context
  backContext : Option Context
deriving DecidableEq, Repr

namespace Start

def testnetMode (start : Start) : Bool :=
  start.options.coinType == 1

def callback (start : Start) : StartCallback :=
  { self := start.handle, mainContext := start.mainContext, response := start.response }

def call (start : Start) (testnetMode : Bool) : List Call :=
  getTransactions testnetMode (some start.http) start.addresses start.backContext start.response
    start.callback

end Start

namespace Lib

def init : Lib where
  testnetMode := false
  apis := []
  handles := []
  now := 0

def createApi (lib : Lib) (httpImpl : Option HttpImpl) (threadDispatcher : ThreadDispatcher) : Lib :=
  let context := threadDispatcher.getSerialExecutionContext lib.now mainExecutionContext
  let api := { http := { context := context, impl := httpImpl }, threadDispatcher }
  { lib with apis := lib.apis ++ [api], now := lib.now + 1 }

def observerTransactionList (lib : Lib) (api : Nat) : Option Lib :=
  match lib.apis[api]? with
  | some api =>
    let handle := { http := api.http, observer := none, threadDispatcher := api.threadDispatcher }
    some { lib with handles := lib.handles ++ [handle] }
  | none => none

def start (lib : Lib) (self : HandleRef) (observer : Observer) (addresses : List Str)
    (options : ApiOptions) (response : HandleResponse) : Option (Lib × Start × List Call) :=
  match lib.handles[self]? with
  | some handle =>
    let getContext := handle.threadDispatcher.getSerialExecutionContext lib.now
    let start : Start :=
      { handle := self, observer, addresses, options, response
        http := handle.http
        mainContext := getContext mainExecutionContext
        backContext := getContext backExecutionContext }
    let lib := { lib with
      testnetMode := options.coinType == 1
      handles := lib.handles.set self { handle with observer := some observer }
      now := lib.now + 1 }
    some (lib, start, start.call lib.testnetMode)
  | none => none

def getObserver (lib : Lib) (self : HandleRef) : Option Observer :=
  match lib.handles[self]? with
  | some handle => handle.observer
  | none => none

end Lib
end LedgerApp
