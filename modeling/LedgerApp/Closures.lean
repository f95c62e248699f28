import LedgerApp.Json11.Basic

/-!
The records of the interface, the closures of the client with what each of them captures by copy,
and the calls a piece of C++ code makes to the platform. An object behind a `shared_ptr` that the
platform implements is a number; a `shared_ptr` that the code compares with null is an `Option`.
-/

namespace LedgerApp

open Bytes

abbrev HttpImpl := Nat
abbrev Context := Nat
abbrev Observer := Nat
abbrev HandleResponse := Nat
abbrev HandleRef := Nat
abbrev Cell := Nat

structure HttpHeader where
  field : Str
  value : Str
deriving DecidableEq, Repr

structure Response where
  error : Str
  result : Str
deriving DecidableEq, Repr

structure ApiOptions where
  coinType : Int32
deriving DecidableEq, Repr

structure TransactionListVmCell where
  txHash : Str
  receivedAt : Str
  txData : Str
deriving DecidableEq, Repr

structure Tx where
  hash : Str
  receivedAt : Str
  data : Str
deriving DecidableEq, Repr

structure TransactionListVm where
  transactions : List TransactionListVmCell
  handle : HandleRef
deriving DecidableEq, Repr

/-- `http_code` stays uninitialised when there was a network error. -/
structure HttpResponse where
  error : Bool
  errorMessage : Str
  httpCode : Option UInt16
  data : Str
deriving DecidableEq, Repr

structure Http where
  context : Option Context
  impl : Option HttpImpl
deriving DecidableEq, Repr

structure StartCallback where
  self : HandleRef
  mainContext : Option Context
  response : HandleResponse
deriving DecidableEq, Repr

structure TokenContinuation where
  http : Option Http
  url : Str
  callback : StartCallback
  backContext : Option Context
  response : HandleResponse
deriving DecidableEq, Repr

structure TokenReply where
  callback : TokenContinuation
  response : HandleResponse
deriving DecidableEq, Repr

structure TxTask where
  http : Option Http
  url : Str
  header : List HttpHeader
  callback : StartCallback
  response : HandleResponse
deriving DecidableEq, Repr

/-- `[&, callback]`: `response` is a reference into the closure of the enclosing `tx_task`. -/
structure TxReply where
  callback : StartCallback
  enclosing : Cell
deriving DecidableEq, Repr

structure Update where
  weakSelf : HandleRef
  vCells : List TransactionListVmCell
  observer : Option Observer
deriving DecidableEq, Repr

inductive HttpHandler where
  | token (closure : TokenReply)
  | transactions (closure : TxReply)
deriving DecidableEq, Repr

structure HttpCallback where
  context : Option Context
  cb : HttpHandler
deriving DecidableEq, Repr

inductive Task where
  | reply (callback : HttpHandler) (resp : HttpResponse)
  | getTransactions (closure : TxTask)
  | update (closure : Update)
deriving DecidableEq, Repr

inductive Call where
  | get (impl : HttpImpl) (url : Str) (header : Option (List HttpHeader)) (callback : HttpCallback)
  | execute (context : Context) (task : Task)
  | respond (handle : HandleResponse) (result : Response)
  | onUpdate (observer : Observer) (newData : TransactionListVm)
  | print (text : Str)
  -- a null pointer or a dangling reference is used
  | fault
deriving DecidableEq, Repr

end LedgerApp
