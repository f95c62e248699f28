import LedgerApp.Api
import LedgerApp.Json11.Lemmas.Total

/-!
What each body does, in terms of the reply it is given: a reply is an error text or a JSON value,
and every handler treats the two kinds of failure in the same way.
-/

namespace LedgerApp

open Bytes Json11

variable {F : Double}

-- the text a handler reports, or the value it goes on with
def HttpResponse.read (F : Double) (resp : HttpResponse) : Except Str (Json F) :=
  if resp.error then .error resp.errorMessage else parseText F resp.data

namespace Reply

def response (reply : Reply) : HttpResponse :=
  match reply with
  | .networkError _ => { error := true, errorMessage := [], httpCode := none, data := [] }
  | .success httpCode data =>
    { error := false, errorMessage := [], httpCode := some httpCode.toUInt16, data := data }

def read (F : Double) (reply : Reply) : Except Str (Json F) :=
  match reply with
  | .networkError _ => .error []
  | .success _ data => parseText F data

theorem read_response (reply : Reply) : reply.response.read F = reply.read F := by
  cases reply with
  | networkError error => rfl
  | success httpCode data => rfl

theorem read_eq_ok {reply : Reply} {json : Json F} (h : reply.read F = .ok json)
    : ∃ code data, reply = .success code data ∧ parseText F data = .ok json := by
  cases reply with
  | networkError error => simp [Reply.read] at h
  | success code data => exact ⟨code, data, rfl, h⟩

end Reply

theorem HttpCallback.on_eq (callback : HttpCallback) (reply : Reply)
    : callback.on reply = callback.cbWith reply.response := by
  cases reply with
  | networkError error => rfl
  | success httpCode data => rfl

theorem parse_of_ok {str : Str} {v : Json F} (h : parseText F str = .ok v)
    : parse F str = (v, []) := by
  unfold parse
  rw [h]

theorem parse_of_error {str e : Str} (h : parseText F str = .error e)
    : parse F str = (.null, e) := by
  unfold parse
  rw [h]

theorem TokenReply.call_eq (closure : TokenReply) (resp : HttpResponse)
    : closure.call F resp = (match resp.read F with
        | .error e => [.respond closure.response { error := e, result := [] }]
        | .ok json => closure.callback.call (json.get (lit "token")).stringValue) := by
  generalize herror : resp.error = error
  cases error with
  | true => simp [TokenReply.call, HttpResponse.read, herror]
  | false =>
    generalize h : parseText F resp.data = x
    cases x with
    | ok v => simp [TokenReply.call, HttpResponse.read, herror, h, parse_of_ok h]
    | error e =>
      have hne := parseText_error_ne_nil h
      simp [TokenReply.call, HttpResponse.read, herror, h, parse_of_error h, hne]

def listed (json : Json F) : List Tx :=
  (json.get (lit "txs")).arrayItems.map parseTransaction

def printed (json : Json F) : List Call :=
  if (json.get (lit "truncated")).boolValue then [.print (lit "Is truncated !!!\n")] else []

theorem TxReply.call_eq (closure : TxReply) (response : Option HandleResponse)
    (getObserver : HandleRef → Option Observer) (resp : HttpResponse)
    : closure.call F response getObserver resp = (match resp.read F with
        | .error e => respondBy response { error := e, result := [] }
        | .ok json =>
          if json.isObject then
            printed json ++ closure.callback.call getObserver (listed json)
          else
            []) := by
  generalize herror : resp.error = error
  cases error with
  | true => simp [TxReply.call, HttpResponse.read, herror]
  | false =>
    generalize h : parseText F resp.data = x
    cases x with
    | ok v =>
      simp [TxReply.call, HttpResponse.read, herror, h, parse_of_ok h, printed, listed]
    | error e =>
      have hne := parseText_error_ne_nil h
      simp [TxReply.call, HttpResponse.read, herror, h, parse_of_error h, hne]

/-! ## The loops -/

theorem joinAddresses_eq (addresses : List Str)
    : joinAddresses addresses = (lit ",").intercalate addresses := by
  cases addresses with
  | nil => rfl
  | cons address addresses =>
    rw [joinAddresses]
    induction addresses generalizing address with
    | nil => simp [joinRest]
    | cons next addresses ih =>
      rw [joinRest, List.intercalate_cons_cons, ← ih next]
      simp

def cellOf (tx : Tx) : TransactionListVmCell :=
  { txHash := tx.hash, receivedAt := tx.receivedAt, txData := tx.data }

def listText (cells : List TransactionListVmCell) : Str :=
  lit "[" ++ (lit ",").intercalate (cells.map (·.txData)) ++ lit "]"

theorem listText_ne_nil (cells : List TransactionListVmCell) : listText cells ≠ [] := by
  simp [listText, lit]

theorem appendCells_eq (size j : Nat) (txs : List Tx) (txsData : Str)
    (vCells : List TransactionListVmCell) (h : j + txs.length = size)
    : appendCells size j txs txsData vCells
        = (txsData ++ (lit ",").intercalate (txs.map (·.data)), vCells ++ txs.map cellOf) := by
  induction txs generalizing j txsData vCells with
  | nil => simp [appendCells]
  | cons tx txs ih =>
    rw [appendCells, ih]
    . cases txs with
      | nil =>
        simp only [List.length_cons, List.length_nil] at h
        have hlast : ¬(j ≠ size - 1) := by omega
        rw [if_neg hlast]
        simp [cellOf]
      | cons next txs =>
        simp only [List.length_cons] at h
        have hmore : j ≠ size - 1 := by omega
        rw [if_pos hmore]
        simp [cellOf]
    . simp only [List.length_cons] at h
      omega

def StartCallback.update (callback : StartCallback) (getObserver : HandleRef → Option Observer)
    (txs : List Tx) : Update :=
  { weakSelf := callback.self, vCells := txs.map cellOf, observer := getObserver callback.self }

theorem StartCallback.call_eq (callback : StartCallback)
    (getObserver : HandleRef → Option Observer) (txs : List Tx)
    : callback.call getObserver txs =
        .respond callback.response { error := [], result := listText (txs.map cellOf) } ::
          (match callback.mainContext with
            | some context => [.execute context (.update (callback.update getObserver txs))]
            | none => []) := by
  have hdata : (txs.map cellOf).map (·.txData) = txs.map (·.data) := by
    simp [cellOf]
  rw [StartCallback.call, appendCells_eq _ _ _ _ _ (by simp), listText, hdata]
  rfl

/-! ## What a task can bring about -/

def Task.Makes (F : Double) (task : Task) (getObserver : HandleRef → Option Observer)
    : Call → Prop
  | .execute _ (.reply _ _) => False
  | .execute _ (.getTransactions _) => ∃ closure resp, task = .reply (.token closure) resp
  | .execute context (.update later) => ∃ closure resp json,
      task = .reply (.transactions closure) resp ∧ resp.read F = .ok json
        ∧ json.isObject = true ∧ closure.callback.mainContext = some context
        ∧ later = closure.callback.update getObserver (listed json)
  | .onUpdate observer newData => ∃ closure, task = .update closure
      ∧ closure.observer = some observer
      ∧ newData = { transactions := closure.vCells, handle := closure.weakSelf }
  | _ => True

theorem mem_printed {json : Json F} {call : Call} (h : call ∈ printed json)
    : call = .print (lit "Is truncated !!!\n") := by
  unfold printed at h
  split at h
  . exact List.mem_singleton.mp h
  . simp at h

theorem Task.makes_of_mem {task : Task} {cell : Cell} {cells : List (Option Task)}
    {getObserver : HandleRef → Option Observer} {call : Call}
    (h : call ∈ task.call F cell cells getObserver) : task.Makes F getObserver call := by
  unfold Task.call at h
  split at h
  . rw [TokenReply.call_eq] at h
    split at h
    . rw [List.mem_singleton.mp h]
      trivial
    . unfold TokenContinuation.call at h
      split at h
      . rw [List.mem_singleton.mp h]
        exact ⟨_, _, rfl⟩
      . rw [List.mem_singleton.mp h]
        trivial
  . rw [TxReply.call_eq] at h
    split at h
    . unfold respondBy at h
      split at h
      . rw [List.mem_singleton.mp h]
        trivial
      . rw [List.mem_singleton.mp h]
        trivial
    . next hread =>
      split at h
      . next hobject =>
        rw [StartCallback.call_eq, List.mem_append, List.mem_cons] at h
        rcases h with h | h | h
        . rw [mem_printed h]
          trivial
        . rw [h]
          trivial
        . split at h
          . next hmain =>
            rw [List.mem_singleton.mp h]
            exact ⟨_, _, _, rfl, hread, hobject, hmain, rfl⟩
          . simp at h
      . simp at h
  . unfold TxTask.call Http.get at h
    split at h
    . split at h
      . rw [List.mem_singleton.mp h]
        trivial
      . simp at h
    . rw [List.mem_singleton.mp h]
      trivial
  . unfold Update.call at h
    split at h
    . next hobserver =>
      rw [List.mem_singleton.mp h]
      exact ⟨_, rfl, hobserver, rfl⟩
    . rw [List.mem_singleton.mp h]
      trivial

theorem HttpCallback.mem_on {callback : HttpCallback} {reply : Reply} {call : Call}
    (h : call ∈ callback.on reply)
    : ∃ context, call = .execute context (.reply callback.cb reply.response) := by
  rw [HttpCallback.on_eq, HttpCallback.cbWith] at h
  split at h
  . exact ⟨_, List.mem_singleton.mp h⟩
  . simp at h

/-! ## The closures of one `start` -/

namespace Start

def tokenUrl (start : Start) : Str :=
  base start.testnetMode ++ lit "syncToken"

def txUrl (start : Start) : Str :=
  base start.testnetMode ++
    (lit "addresses/" ++ joinAddresses start.addresses ++ lit "/transactions")

def tokenHeader (token : Str) : List HttpHeader :=
  [{ field := lit "X-LedgerWallet-SyncToken", value := token }]

def tokenReply (start : Start) : TokenReply where
  callback :=
    { http := some start.http, url := start.txUrl, callback := start.callback,
      backContext := start.backContext, response := start.response }
  response := start.response

def tokenCallback (start : Start) : HttpCallback :=
  { context := start.http.context, cb := .token start.tokenReply }

def txTask (start : Start) (token : Str) : TxTask :=
  { http := some start.http, url := start.txUrl, header := tokenHeader token,
    callback := start.callback, response := start.response }

def txReply (start : Start) (cell : Cell) : TxReply :=
  { callback := start.callback, enclosing := cell }

def txCallback (start : Start) (cell : Cell) : HttpCallback :=
  { context := start.http.context, cb := .transactions (start.txReply cell) }

theorem call_eq (start : Start)
    : start.call start.testnetMode = (match start.http.impl with
        | some impl => [.get impl start.tokenUrl (some []) start.tokenCallback]
        | none => []) := rfl

theorem mem_call {start : Start} {call : Call} (h : call ∈ start.call start.testnetMode)
    : ∃ impl, call = .get impl start.tokenUrl (some []) start.tokenCallback := by
  rw [call_eq] at h
  split at h
  . exact ⟨_, List.mem_singleton.mp h⟩
  . simp at h

theorem tokenContinuation_call (start : Start) (token : Str)
    : start.tokenReply.callback.call token = (match start.backContext with
        | some context => [.execute context (.getTransactions (start.txTask token))]
        | none => [.fault]) := rfl

theorem callback_call (start : Start) {getObserver : HandleRef → Option Observer}
    {observer : Observer} (h : getObserver start.handle = some observer) (txs : List Tx)
    : start.callback.call getObserver txs =
        .respond start.response { error := [], result := listText (txs.map cellOf) } ::
          (match start.mainContext with
            | some context =>
              let vCells := txs.map cellOf
              [.execute context
                (.update { weakSelf := start.handle, vCells, observer := some observer })]
            | none => []) := by
  rw [StartCallback.call_eq, StartCallback.update, Start.callback, h]

theorem txTask_call (start : Start) (token : Str) (cell : Cell)
    : (start.txTask token).call cell = (match start.http.impl with
        | some impl => [.get impl start.txUrl (some (tokenHeader token)) (start.txCallback cell)]
        | none => []) := rfl

end Start
end LedgerApp
