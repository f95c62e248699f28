import LedgerApp.Lemmas.Client
import LedgerApp.Machine

/-!
The stages one `start` passes through: for each stage the requests and Runnables of this `start`
that are pending and all that has happened on its behalf so far. How the steps of several starts are
interleaved plays no role here.
-/

namespace LedgerApp

open Bytes Json11

/-- What the platform and the server have contributed to one `start`. -/
structure Path (F : Double) where
  impl : HttpImpl := 0
  context : Context := 0
  back : Context := 0
  main : Context := 0
  observer : Observer := 0
  tokenAnswer : Reply := .networkError []
  tokenJson : Json F := .null
  txAnswer : Reply := .networkError []
  txJson : Json F := .null
  tokenCell : Cell := 0
  txCell : Cell := 0
  replyCell : Cell := 0
  updateCell : Cell := 0

namespace Path

variable {F : Double} (p : Path F) (origin : Nat) (start : Start)

def token : Str :=
  (p.tokenJson.get (lit "token")).stringValue

def vCells : List TransactionListVmCell :=
  (listed p.txJson).map cellOf

def tokenRunnable : Runnable where
  origin := origin
  cell := p.tokenCell
  context := p.context
  task := .reply (.token start.tokenReply) p.tokenAnswer.response

def txRunnable : Runnable where
  origin := origin
  cell := p.txCell
  context := p.back
  task := .getTransactions (start.txTask p.token)

def replyRunnable : Runnable where
  origin := origin
  cell := p.replyCell
  context := p.context
  task := .reply (.transactions (start.txReply p.txCell)) p.txAnswer.response

def updateRunnable : Runnable where
  origin := origin
  cell := p.updateCell
  context := p.main
  task := .update { weakSelf := start.handle, vCells := p.vCells, observer := some p.observer }

def success : Response :=
  { error := [], result := listText p.vCells }

/-! ## Traces -/

@[simp]
def asked : List Event :=
  [.started origin start,
    .called origin (.get p.impl start.tokenUrl (some []) start.tokenCallback)]

@[simp]
def tokenLost : List Event :=
  p.asked origin start ++ [.replied origin (.token start.tokenReply) p.tokenAnswer]

@[simp]
def tokenReplied : List Event :=
  p.asked origin start ++
    [.replied origin (.token start.tokenReply) p.tokenAnswer,
      .called origin (.execute p.context (p.tokenRunnable origin start).task)]

@[simp]
def tokenRan (call : Call) : List Event :=
  p.tokenReplied origin start ++ [.ran (p.tokenRunnable origin start), .called origin call]

@[simp]
def granted : List Event :=
  p.tokenRan origin start (.execute p.back (p.txRunnable origin start).task)

@[simp]
def txAsked : List Event :=
  p.granted origin start ++
    [.ran (p.txRunnable origin start),
      .called origin (.get p.impl start.txUrl (some (Start.tokenHeader p.token))
        (start.txCallback p.txCell))]

@[simp]
def txReplied : List Event :=
  p.txAsked origin start ++
    [.replied origin (.transactions (start.txReply p.txCell)) p.txAnswer,
      .called origin (.execute p.context (p.replyRunnable origin start).task)]

@[simp]
def txRan (calls : List Call) : List Event :=
  p.txReplied origin start ++ .ran (p.replyRunnable origin start) :: calls.map (.called origin)

@[simp]
def answered (calls : List Call) : List Event :=
  p.txRan origin start (printed p.txJson ++ .respond start.response p.success :: calls)

@[simp]
def scheduled : List Event :=
  p.answered origin start [.execute p.main (p.updateRunnable origin start).task]

@[simp]
def updated : List Event :=
  p.scheduled origin start ++
    [.ran (p.updateRunnable origin start),
      .called origin (.onUpdate p.observer
        { transactions := p.vCells, handle := start.handle })]

/-! ## What holds of a path once a stage is reached -/

structure Asked : Prop where
  impl : start.http.impl = some p.impl

structure Replied : Prop extends Asked p start where
  context : start.http.context = some p.context

structure Parsed : Prop extends Replied p start where
  tokenJson : p.tokenAnswer.read F = .ok p.tokenJson

structure Granted : Prop extends Parsed p start where
  back : start.backContext = some p.back

structure Listed : Prop extends Granted p start where
  txJson : p.txAnswer.read F = .ok p.txJson

structure Answered : Prop extends Listed p start where
  isObject : p.txJson.isObject = true

structure Scheduled : Prop extends Answered p start where
  main : start.mainContext = some p.main

end Path

/-- The closure of a Runnable that was run is in its cell, or was dropped. -/
def Kept (cells : List (Option Task)) (cell : Cell) (task : Task) : Prop :=
  cells[cell]? = some (some task) ∨ cells[cell]? = some none

inductive Stage (F : Double) (cells : List (Option Task)) (origin : Nat) (start : Start)
    : List Request → List Runnable → List Event → Prop
  | silent (himpl : start.http.impl = none)
    : Stage F cells origin start [] [] [.started origin start]
  | tokenRequested (p : Path F) (h : p.Asked start)
    : Stage F cells origin start [⟨origin, start.tokenCallback⟩] [] (p.asked origin start)
  | tokenLost (p : Path F) (h : p.Asked start) (hcontext : start.http.context = none)
    : Stage F cells origin start [] [] (p.tokenLost origin start)
  | tokenReplied (p : Path F) (h : p.Replied start)
    : Stage F cells origin start [] [p.tokenRunnable origin start] (p.tokenReplied origin start)
  | tokenFailed (p : Path F) (h : p.Replied start) (e : Str) (he : p.tokenAnswer.read F = .error e)
    : Stage F cells origin start [] [] (p.tokenRan origin start (.respond start.response ⟨e, []⟩))
  | noBack (p : Path F) (h : p.Parsed start) (hback : start.backContext = none)
    : Stage F cells origin start [] [] (p.tokenRan origin start .fault)
  | granted (p : Path F) (h : p.Granted start)
      (hcell : Kept cells p.txCell (p.txRunnable origin start).task)
    : Stage F cells origin start [] [p.txRunnable origin start] (p.granted origin start)
  | txRequested (p : Path F) (h : p.Granted start)
      (hcell : Kept cells p.txCell (p.txRunnable origin start).task)
    : Stage F cells origin start [⟨origin, start.txCallback p.txCell⟩] [] (p.txAsked origin start)
  | txReplied (p : Path F) (h : p.Granted start)
      (hcell : Kept cells p.txCell (p.txRunnable origin start).task)
    : Stage F cells origin start [] [p.replyRunnable origin start] (p.txReplied origin start)
  | txFailed (p : Path F) (h : p.Granted start) (e : Str) (he : p.txAnswer.read F = .error e)
    : Stage F cells origin start [] [] (p.txRan origin start [.respond start.response ⟨e, []⟩])
  | txDangling (p : Path F) (h : p.Granted start) (e : Str) (he : p.txAnswer.read F = .error e)
    : Stage F cells origin start [] [] (p.txRan origin start [.fault])
  | txIgnored (p : Path F) (h : p.Listed start) (hobject : p.txJson.isObject = false)
    : Stage F cells origin start [] [] (p.txRan origin start [])
  | answered (p : Path F) (h : p.Answered start) (hmain : start.mainContext = none)
    : Stage F cells origin start [] [] (p.answered origin start [])
  | scheduled (p : Path F) (h : p.Scheduled start)
    : Stage F cells origin start [] [p.updateRunnable origin start] (p.scheduled origin start)
  | updated (p : Path F) (h : p.Scheduled start)
    : Stage F cells origin start [] [] (p.updated origin start)

end LedgerApp
