import LedgerApp.Json11.Integers
import LedgerApp.Precedence
import LedgerApp.Trace

/-!
The order of what happens on behalf of one `start`: what each request, answer and update needs to
have happened before it, and that nothing happens any more after a failure.
-/

namespace LedgerApp

open Bytes Json11

variable {F : Double} {s s' : State}

def TokenGiven (F : Double) (origin : Nat) : Event → Prop
  | .replied owner (.token _) (.success _ data) =>
    owner = origin ∧ ∃ json, parseText F data = .ok json
  | _ => False

def IsTxGet (origin : Nat) : Event → Prop
  | .called owner call => owner = origin ∧ call.isTxGet = true
  | _ => False

def Answered (origin : Nat) (handle : HandleResponse) (newData : TransactionListVm)
    : Event → Prop
  | .called owner (.respond handle' result) =>
    owner = origin ∧ handle' = handle
      ∧ result = { error := [], result := listText newData.transactions }
  | _ => False

def IsUpdate (origin : Nat) (newData : TransactionListVm) : Event → Prop
  | .called owner (.onUpdate _ newData') => owner = origin ∧ newData' = newData
  | _ => False

section

variable {cells : List (Option Task)} {origin : Nat} {start : Start} {requests : List Request}
variable {queue : List Runnable} {trace : List Event}

theorem tokenGiven_of_parsed {p : Path F} (origin : Nat) (h : p.Parsed start)
    : TokenGiven F origin (.replied origin (.token start.tokenReply) p.tokenAnswer) := by
  rcases Reply.read_eq_ok h.tokenJson with ⟨code, data, hreply, hparse⟩
  rw [hreply]
  exact ⟨rfl, p.tokenJson, hparse⟩

@[simp]
theorem precedes_printed {cause effect : Event → Prop} {json : Json F}
    : Precedes cause effect ((printed json).map (.called origin)) ↔
      ((json.get (lit "truncated")).boolValue = true →
        ¬effect (.called origin (.print (lit "Is truncated !!!\n")))) := by
  unfold printed
  split
  . next h => simp [h]
  . next h => simp [h]

theorem Stage.token_before (h : Stage F cells origin start requests queue trace)
    : Precedes (TokenGiven F origin) (IsTxGet origin) trace := by
  cases h with
  | silent _
  | tokenRequested p _
  | tokenLost p _ _
  | tokenReplied p _
  | tokenFailed p _ _ _
  | noBack p _ _
  | granted p _ _ => simp [IsTxGet, Call.isTxGet, Start.tokenCallback]
  | txRequested p h _
  | txReplied p h _
  | txFailed p h _ _
  | txDangling p h _ _
  | txIgnored p h _
  | answered p h _
  | scheduled p h
  | updated p h =>
    have := tokenGiven_of_parsed origin h.toParsed
    simp [IsTxGet, Call.isTxGet, Start.tokenCallback, this]

theorem Stage.answer_before (h : Stage F cells origin start requests queue trace)
    (newData : TransactionListVm)
    : Precedes (Answered origin start.response newData) (IsUpdate origin newData) trace := by
  cases h with
  | silent _
  | tokenRequested p _
  | tokenLost p _ _
  | tokenReplied p _
  | tokenFailed p _ _ _
  | noBack p _ _
  | granted p _ _
  | txRequested p h _
  | txReplied p h _
  | txFailed p h _ _
  | txDangling p h _ _
  | txIgnored p h _
  | answered p _ _
  | scheduled p _ => simp [IsUpdate]
  | updated p h =>
    by_cases hdata : newData = { transactions := p.vCells, handle := start.handle }
    . simp [IsUpdate, Answered, hdata, Path.success]
    . simp [IsUpdate, Ne.symm hdata]

theorem Stage.counts (h : Stage F cells origin start requests queue trace)
    : (txGets origin trace).length ≤ 1 ∧ (responds origin trace).length ≤ 1
        ∧ (updates origin trace).length ≤ 1 := by
  unfold txGets responds updates
  cases h with
  | _ =>
    simp [Call.isTxGet, Call.answer, Call.shown, Start.tokenCallback, Start.txCallback,
      List.filter_cons, List.filterMap_cons]

-- the handler of a network error or of a text that json11 refuses
def Task.failed (F : Double) : Task → Prop
  | .reply _ resp => ∃ e, resp.read F = .error e
  | _ => False

theorem not_failed_of_read {reply : Reply} {json : Json F} (callback : HttpHandler)
    (h : reply.read F = .ok json) : ¬Task.failed F (.reply callback reply.response) := by
  rw [← Reply.read_response] at h
  simp [Task.failed, h]

theorem Stage.idle_of_failed (h : Stage F cells origin start requests queue trace)
    {runnable : Runnable} (hmem : .ran runnable ∈ trace) (hfailed : runnable.task.failed F)
    : requests = [] ∧ queue = [] := by
  have htask : ∀ p : Path F, ¬Task.failed F (p.txRunnable origin start).task := by
    intro p hp
    exact hp
  cases h with
  | granted p h _ =>
    simp at hmem
    rw [hmem] at hfailed
    exact absurd hfailed (not_failed_of_read _ h.tokenJson)
  | txRequested p h _
  | txReplied p h _ =>
    simp at hmem
    rcases hmem with hmem | hmem
    . rw [hmem] at hfailed
      exact absurd hfailed (not_failed_of_read _ h.tokenJson)
    . rw [hmem] at hfailed
      exact absurd hfailed (htask p)
  | scheduled p h =>
    simp at hmem
    rcases hmem with hmem | hmem | hmem
    . rw [hmem] at hfailed
      exact absurd hfailed (not_failed_of_read _ h.tokenJson)
    . rw [hmem] at hfailed
      exact absurd hfailed (htask p)
    . rw [hmem] at hfailed
      exact absurd hfailed (not_failed_of_read _ h.txJson)
  | tokenRequested p h
  | tokenReplied p h => simp at hmem
  | _ => exact ⟨rfl, rfl⟩

end

theorem State.cause_before {origin : Nat} {cause effect : Event → Prop} {event : Event}
    {pre post : List Event} (h : Precedes cause effect (s.traceOf origin))
    (hevent : event.origin = origin) (heffect : effect event)
    (htrace : s.trace = pre ++ event :: post) : ∃ e ∈ pre, cause e := by
  have hsplit := owned_split hevent pre post
  rw [← htrace] at hsplit
  rcases h.cause_before hsplit heffect with ⟨e, he, hcause⟩
  exact ⟨e, (mem_owned.mp he).1, hcause⟩

theorem State.At.idle {origin : Nat} {start : Start} (h : s.At F origin start)
    (htracked : Tracked F s) (hrequests : s.requestsOf origin = [])
    (hqueue : s.queueOf origin = []) : Idle origin (s.traceOf origin) s where
  requests := hrequests
  queue := hqueue
  trace := rfl
  now := by
    apply htracked.lt_now
    intro hunstarted
    have hmem : Event.started origin start ∈ s.traceOf origin := mem_owned.mpr ⟨h.started_mem, rfl⟩
    rw [hunstarted.trace] at hmem
    simp at hmem

structure CausallyOrdered (F : Double) (s : State) (origin : Nat) (start : Start) : Prop where
  txGet_once : (txGets origin s.trace).length ≤ 1
  txGet_after_token : ∀ pre call post, s.trace = pre ++ .called origin call :: post →
    call.isTxGet = true → ∃ e ∈ pre, TokenGiven F origin e
  update_once : (updates origin s.trace).length ≤ 1
  update_after_answer : ∀ pre observer newData post,
    s.trace = pre ++ .called origin (.onUpdate observer newData) :: post →
    .called origin (.respond start.response
      { error := [], result := listText newData.transactions }) ∈ pre
  stop_after_failure : ∀ runnable, .ran runnable ∈ s.trace → runnable.origin = origin →
    runnable.task.failed F → ∀ s', (machine F).Steps System.free s s' →
      calls origin s'.trace = calls origin s.trace

theorem causally_ordered (hs : (machine F).Reachable System.free s) {origin : Nat} {start : Start}
    (hstarted : .started origin start ∈ s.trace) : CausallyOrdered F s origin start := by
  have htracked := tracked_of_reachable hs
  have hat := htracked.at_of_started hstarted
  have hcounts := Stage.counts hat
  rw [txGets_traceOf, updates_traceOf] at hcounts
  refine ⟨hcounts.1, ?_, hcounts.2.2, ?_, ?_⟩
  . intro pre call post htrace hget
    have heffect : IsTxGet origin (.called origin call) := ⟨rfl, hget⟩
    exact State.cause_before (Stage.token_before hat) rfl heffect htrace
  . intro pre observer newData post htrace
    have heffect : IsUpdate origin newData (.called origin (.onUpdate observer newData)) :=
      ⟨rfl, rfl⟩
    rcases State.cause_before (Stage.answer_before hat newData) rfl heffect htrace with
      ⟨e, he, hanswered⟩
    have : e = .called origin (.respond start.response
        { error := [], result := listText newData.transactions }) := by
      unfold Answered at hanswered
      split at hanswered
      . rw [hanswered.1, hanswered.2.1, hanswered.2.2]
      . contradiction
    rw [← this]
    exact he
  . intro runnable hran horigin hfailed s' hsteps
    have hidle := Stage.idle_of_failed hat (State.mem_traceOf.mpr ⟨hran, horigin⟩) hfailed
    have := (hat.idle htracked hidle.1 hidle.2).steps hsteps
    rw [← calls_traceOf, ← calls_traceOf, this.trace]

/-! ## A run with one answer -/

def twoContexts : ThreadDispatcher where
  getSerialExecutionContext := fun _ name => if name = mainExecutionContext then some 0 else some 1

def answeredActions : List Action :=
  [.createApi (some 0) twoContexts, .observerTransactionList 0, .start 0 5 [lit "a", lit "b"] ⟨1⟩ 7,
    .deliver 0 (.success 200 (lit "\x7b\"token\":\"t\"\x7d")), .run 0, .run 0, .drop 1,
    .deliver 0 (.success 200 (lit "\x7b\"txs\":[\x7b\"hash\":\"h\"\x7d, 3]\x7d")), .run 0, .run 0]

theorem answeredActions_exec
    : ((machine Double.integers).exec (machine Double.integers).init answeredActions).isSome
        = true := by
  decide +kernel

def answeredState : State :=
  ((machine Double.integers).exec (machine Double.integers).init answeredActions).get
    answeredActions_exec

def answeredStart : Start where
  handle := 0
  observer := 5
  addresses := [lit "a", lit "b"]
  options := ⟨1⟩
  response := 7
  http := { context := some 0, impl := some 0 }
  mainContext := some 0
  backContext := some 1

theorem answeredState_reachable : (machine Double.integers).Reachable System.free answeredState :=
  System.reachable_exec answeredActions_exec (System.along_free _ _)

theorem answeredState_started : .started 1 answeredStart ∈ answeredState.trace := by
  decide +kernel

theorem causally_ordered_answered : CausallyOrdered Double.integers answeredState 1 answeredStart :=
  causally_ordered answeredState_reachable answeredState_started

end LedgerApp
