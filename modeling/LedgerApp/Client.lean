import LedgerApp.Closures
import LedgerApp.Json11.Dump
import LedgerApp.Json11.Parse

/-!
The bodies of the client and of the view model. A body is the list of the calls it makes, in order;
what it reads outside of its captures, a member of an object or a by-reference capture, is an
argument.
-/

namespace LedgerApp

open Bytes Json11

def baseUrl : Str := lit "https://api.ledgerwallet.com/blockchain/v2/btc/"
def testnetBaseUrl : Str := lit "http://api.ledgerwallet.com/blockchain/v2/btc_testnet/"
def mainExecutionContext : Str := lit "__main__"
def backExecutionContext : Str := lit "__background__"

def base (testnetMode : Bool) : Str :=
  if testnetMode then testnetBaseUrl else baseUrl

namespace HttpCallback

def cbWith (callback : HttpCallback) (resp : HttpResponse) : List Call :=
  match callback.context with
  | some context => [.execute context (.reply callback.cb resp)]
  | none => []

-- `error` is not copied into the response
def onNetworkError (callback : HttpCallback) (_error : Str) : List Call :=
  callback.cbWith { error := true, errorMessage := [], httpCode := none, data := [] }

def onSuccess (callback : HttpCallback) (httpCode : Int16) (data : Str) : List Call :=
  callback.cbWith
    { error := false, errorMessage := [], httpCode := some httpCode.toUInt16, data := data }

end HttpCallback

/-- What the platform may report to an `HttpCallback`. -/
inductive Reply where
  | networkError (error : Str)
  | success (httpCode : Int16) (data : Str)
deriving DecidableEq, Repr

def HttpCallback.on (callback : HttpCallback) (reply : Reply) : List Call :=
  match reply with
  | .networkError error => callback.onNetworkError error
  | .success httpCode data => callback.onSuccess httpCode data

def Http.get (http : Http) (url : Str) (header : Option (List HttpHeader)) (response : HttpHandler)
    : List Call :=
  match http.impl with
  | some impl => [.get impl url header { context := http.context, cb := response }]
  | none => []

section

variable {F : Double}

def parseTransaction (data : Json F) : Tx :=
  { hash := (data.get (lit "hash")).stringValue
    receivedAt := (data.get (lit "received_at")).stringValue
    data := data.dump }

end

/-! ## The callback of `start` -/

-- the loop over `txs` from index `j` on
def appendCells (size : Nat)
    : Nat → List Tx → Str → List TransactionListVmCell → Str × List TransactionListVmCell
  | _, [], txsData, vCells => (txsData, vCells)
  | j, tx :: txs, txsData, vCells =>
    let txsData := txsData ++ tx.data ++ (if j ≠ size - 1 then lit "," else [])
    appendCells size (j + 1) txs txsData (vCells ++ [⟨tx.hash, tx.receivedAt, tx.data⟩])

def StartCallback.call (callback : StartCallback) (getObserver : HandleRef → Option Observer)
    (txs : List Tx) : List Call :=
  let (txsData, vCells) := appendCells txs.length 0 txs (lit "[") []
  let update : Update :=
    { weakSelf := callback.self, vCells := vCells, observer := getObserver callback.self }
  .respond callback.response { error := [], result := txsData ++ lit "]" } ::
    match callback.mainContext with
    | some context => [.execute context (.update update)]
    | none => []

def Update.call (task : Update) : List Call :=
  match task.observer with
  | some observer => [.onUpdate observer { transactions := task.vCells, handle := task.weakSelf }]
  | none => [.fault]

namespace TransactionListVm

def count (vm : TransactionListVm) : Int32 :=
  Int32.ofNat vm.transactions.length

-- `m_transactions[index]`, where `index` is not checked: `none` is an access outside of the vector
def getTransaction (vm : TransactionListVm) (index : Int32) : Option (Option TransactionListVmCell) :=
  match vm.transactions[index.toInt64.toUInt64.toNat]? with
  | some cell => some (some cell)
  | none => none

end TransactionListVm

/-! ## `get_token` and `get_transactions` -/

def TokenContinuation.call (continuation : TokenContinuation) (token : Str) : List Call :=
  let header := [{ field := lit "X-LedgerWallet-SyncToken", value := token }]
  let txTask : TxTask :=
    { http := continuation.http, url := continuation.url, header := header,
      callback := continuation.callback, response := continuation.response }
  match continuation.backContext with
  | some context => [.execute context (.getTransactions txTask)]
  | none => [.fault]

variable (F : Double)

def TokenReply.call (closure : TokenReply) (resp : HttpResponse) : List Call :=
  if resp.error then
    [.respond closure.response { error := resp.errorMessage, result := [] }]
  else
    let (json, error) := parse F resp.data
    if error ≠ [] then
      [.respond closure.response { error := error, result := [] }]
    else
      closure.callback.call (json.get (lit "token")).stringValue

def getToken (testnetMode : Bool) (http : Option Http) (response : HandleResponse)
    (callback : TokenContinuation) : List Call :=
  match http with
  | some http =>
    http.get (base testnetMode ++ lit "syncToken") (some [])
      (.token { callback := callback, response := response })
  | none => []

-- the second loop, over the addresses after the first
def joinRest : List Str → Str
  | [] => []
  | address :: addresses => lit "," ++ address ++ joinRest addresses

def joinAddresses : List Str → Str
  | [] => []
  | address :: addresses => address ++ joinRest addresses

def getTransactions (testnetMode : Bool) (http : Option Http) (addresses : List Str)
    (backContext : Option Context) (response : HandleResponse) (callback : StartCallback)
    : List Call :=
  let url := base testnetMode ++ (lit "addresses/" ++ joinAddresses addresses ++ lit "/transactions")
  getToken testnetMode http response { http, url, callback, backContext, response }

-- `cell` holds the closure that runs, and with it what the reply handler refers to
def TxTask.call (closure : TxTask) (cell : Cell) : List Call :=
  match closure.http with
  | some http =>
    http.get closure.url (some closure.header)
      (.transactions { callback := closure.callback, enclosing := cell })
  | none => [.fault]

-- `response->respond(res)` through the reference into the cell of `tx_task`
def respondBy (response : Option HandleResponse) (res : Response) : List Call :=
  match response with
  | some handle => [.respond handle res]
  | none => [.fault]

def TxReply.call (closure : TxReply) (response : Option HandleResponse)
    (getObserver : HandleRef → Option Observer) (resp : HttpResponse) : List Call :=
  if resp.error then
    respondBy response { error := resp.errorMessage, result := [] }
  else
    let (json, error) := parse F resp.data
    if error ≠ [] then
      respondBy response { error := error, result := [] }
    else if json.isObject then
      let truncated := (json.get (lit "truncated")).boolValue
      let txs := (json.get (lit "txs")).arrayItems.map parseTransaction
      (if truncated then [.print (lit "Is truncated !!!\n")] else []) ++
        closure.callback.call getObserver txs
    else
      []

-- the handle to which a reference into the closure of a `tx_task` leads
def responseIn (cells : List (Option Task)) (cell : Cell) : Option HandleResponse :=
  match cells[cell]? with
  | some (some (.getTransactions closure)) => some closure.response
  | _ => none

def Task.call (task : Task) (cell : Cell) (cells : List (Option Task))
    (getObserver : HandleRef → Option Observer) : List Call :=
  match task with
  | .reply (.token closure) resp => closure.call F resp
  | .reply (.transactions closure) resp =>
    closure.call F (responseIn cells closure.enclosing) getObserver resp
  | .getTransactions closure => closure.call cell
  | .update closure => closure.call

end LedgerApp
